import Shamsu.Lib.Run
import Shamsu.Ledger.Records

/-!
# Runs that are opened again

Ids, sequence numbers and files of evidence are each given once, as long as a run is
not opened again when files are missing for its counters (`reopened_runs_distinct`):
of commands and contexts there is not always one, and of the files that are numbered
by `_diagnostics_seq` only the packets that are actionable count.
-/

namespace Shamsu.Ledger

open Shamsu.Py Shamsu.Lib

/-- Nothing was given or written twice. -/
structure RunFiles.Distinct (f : RunFiles) : Prop where
  ids : ∀ k, (f.issued k).Nodup
  commands : f.commands.Nodup
  sequences : f.sequences.Nodup
  evidence : f.evidence.Nodup

/-- The condition on a call: what the caller adds to an event or a context does not
override its id or number; output is kept once under an id; and a run is opened again
only when there are as many files of contexts, of command output and of actionable
packets as their counters have given numbers. -/
def Kept (s : State) : Call → Prop
  | .logEvent _ fields | .logContextPreview fields => fields.id = none ∧ fields.sequence = none
  | .logCommandFinish cmdId exitCode stdout stderr =>
    keepOutput s.ledger.config exitCode stdout stderr = true →
      stdoutName cmdId ∉ s.files.evidence ∧ stderrName cmdId ∉ s.files.evidence
  | .reopen _ =>
    s.ledger.counters .context ≤ s.files.countGlob "context_" ".json" ∧
      s.ledger.commandSeq ≤ s.files.countGlob "cmd_" ".stdout.log" ∧
      s.ledger.diagnosticsSeq ≤ s.files.countGlob "error_packet_" ".json"
  | _ => True

/-! ## The invariant -/

/-- A file that is named after a command. -/
def IsOutput (name : Text) : Prop := ∃ cmdId, name = stdoutName cmdId ∨ name = stderrName cmdId

/-- A file that is named after a number below `n`. -/
inductive Numbered (n : Nat) : Text → Prop
  | packet (actionable : Bool) {i : Nat} (h : i < n) : Numbered n (packetName actionable i)
  | exception {i : Nat} (h : i < n) (tag : Text) : Numbered n (exceptionName i tag)
  | unparsed {i : Nat} (h : i < n) (tag : Text) : Numbered n (unparsedName i tag)

theorem Numbered.mono {m n : Nat} {name : Text} (h : Numbered m name) (hmn : m ≤ n) :
    Numbered n name := by
  cases h with
  | packet a h => exact .packet a (by omega)
  | exception h tag => exact .exception (by omega) tag
  | unparsed h tag => exact .unparsed (by omega) tag

/-- What the counters promise of what is written. -/
structure Inv (s : State) : Prop where
  ids : ∀ k, (s.files.issued k).Nodup
  below : ∀ k, ∀ id ∈ s.files.issued k, ∃ i < s.ledger.counters k, id = k.idAt i
  recounted : ∀ k, k ≠ .context → s.ledger.counters k ≤ s.files.recount k
  commands : s.files.commands.Nodup
  commandsBelow : ∀ id ∈ s.files.commands, ∃ i < s.ledger.commandSeq, id = commandId i
  sequences : s.files.sequences.Nodup
  bounded : ∀ n ∈ s.files.sequences, n ≤ s.ledger.sequence
  evidence : s.files.evidence.Nodup
  numbered : ∀ name ∈ s.files.evidence, IsOutput name ∨ Numbered s.ledger.diagnosticsSeq name

/-- No context has a number above those of the events. -/
def Covered (s : State) : Prop :=
  ∀ c ∈ s.files.records .contexts, ∃ e ∈ s.files.records .events, c.sequence ≤ e.sequence

variable {s s' : State}

theorem Inv.distinct (h : Inv s) : s.files.Distinct :=
  ⟨h.ids, h.commands, h.sequences, h.evidence⟩

/-- The ids of a counter are in one group. -/
theorem issued_congr {f f' : RunFiles} {k : Counter} (h : f'.records k.group = f.records k.group) :
    f'.issued k = f.issued k := by
  cases k <;>
  · simp only [Counter.group] at h
    simp only [RunFiles.issued, h]

/-- Only the counter of the contexts is found in the folder. -/
theorem recount_congr {f f' : RunFiles} {k : Counter} (hk : k ≠ .context)
    (h : f'.records k.group = f.records k.group) : f'.recount k = f.recount k := by
  cases k with
  | context => exact absurd rfl hk
  | _ =>
    simp only [Counter.group] at h
    simp only [RunFiles.recount, h]

/-- What changes none of the records, the counters and the history. -/
theorem Inv.congr (h : Inv s) (hrecords : s'.files.records = s.files.records)
    (hcommands : s'.files.commands = s.files.commands)
    (hevidence : s'.files.evidence = s.files.evidence)
    (hcounters : s'.ledger.counters = s.ledger.counters)
    (hcommandSeq : s'.ledger.commandSeq = s.ledger.commandSeq)
    (hdiagnosticsSeq : s'.ledger.diagnosticsSeq = s.ledger.diagnosticsSeq)
    (hsequence : s.ledger.sequence ≤ s'.ledger.sequence) : Inv s' := by
  have hissued : s'.files.issued = s.files.issued :=
    funext fun k => issued_congr (congrFun hrecords k.group)
  have hsequences : s'.files.sequences = s.files.sequences := by
    simp only [RunFiles.sequences, RunFiles.sequencesOf, hrecords]
  constructor
  · rw [hissued]
    exact h.ids
  · rw [hissued, hcounters]
    exact h.below
  · intro k hk
    rw [hcounters, recount_congr hk (congrFun hrecords k.group)]
    exact h.recounted k hk
  · rw [hcommands]
    exact h.commands
  · rw [hcommands, hcommandSeq]
    exact h.commandsBelow
  · rw [hsequences]
    exact h.sequences
  · intro n hn
    rw [hsequences] at hn
    have := h.bounded n hn
    omega
  · rw [hevidence]
    exact h.evidence
  · rw [hevidence, hdiagnosticsSeq]
    exact h.numbered

theorem Inv.correlated (h : Inv s) : Inv s.correlated :=
  h.congr rfl rfl rfl rfl rfl rfl (by show s.ledger.sequence ≤ s.ledger.sequence + 1; omega)

theorem Inv.write (h : Inv s) (name : Text) : Inv { s with files := s.files.write name } :=
  h.congr rfl rfl rfl rfl rfl rfl (Int.le_refl _)

/-! ## Records -/

theorem records_append_self (f : RunFiles) (g : Group) (r : Record) :
    (f.append g r).records g = f.records g ++ [r] := if_pos rfl

theorem records_append_ne (f : RunFiles) {g g' : Group} (h : g' ≠ g) (r : Record) :
    (f.append g r).records g' = f.records g' := if_neg h

/-- A record more is a number more. -/
theorem sequences_append (f : RunFiles) (g : Group) (r : Record) :
    (f.append g r).sequences.Perm (r.sequence :: f.sequences) := by
  rw [List.perm_iff_count]
  intro n
  cases g <;>
    simp [RunFiles.sequences, RunFiles.sequencesOf, Group.files, RunFiles.append,
      List.count_append, List.count_cons] <;> omega

/-- A record with the next number. -/
theorem sequences_append_next {f : RunFiles} {last : Int} (hdistinct : f.sequences.Nodup)
    (hbounded : ∀ n ∈ f.sequences, n ≤ last) (g : Group) {r : Record} (hr : r.sequence = last + 1) :
    (f.append g r).sequences.Nodup ∧
      ∀ n ∈ (f.append g r).sequences, n = last + 1 ∨ n ∈ f.sequences := by
  have hperm := sequences_append f g r
  rw [hr] at hperm
  constructor
  · rw [hperm.nodup_iff, List.nodup_cons]
    refine ⟨fun hmem => ?_, hdistinct⟩
    have := hbounded _ hmem
    omega
  · intro n hn
    exact List.mem_cons.mp (hperm.mem_iff.mp hn)

theorem Inv.sequences_append (h : Inv s) (g : Group) {r : Record}
    (hr : r.sequence = s.ledger.sequence + 1) :
    (s.files.append g r).sequences.Nodup ∧
      ∀ n ∈ (s.files.append g r).sequences, n ≤ s.ledger.sequence + 1 := by
  obtain ⟨hdistinct, hmem⟩ := sequences_append_next h.sequences h.bounded g hr
  refine ⟨hdistinct, fun n hn => ?_⟩
  rcases hmem n hn with rfl | hold
  · omega
  · have := h.bounded n hold
    omega

/-- A record of this phase in this group gives no id. -/
def Closing (g : Group) (phase : Text) : Prop :=
  ∀ k : Counter, k.group = g → k.phase ≠ [] ∧ phase ≠ k.phase

theorem issued_append_closing {f : RunFiles} {g : Group} {r : Record} (h : Closing g r.phase)
    (k : Counter) : (f.append g r).issued k = f.issued k := by
  by_cases hg : k.group = g
  · obtain ⟨hissues, hphase⟩ := h k hg
    have hphase := beq_eq_false_iff_ne.mpr hphase
    subst hg
    have hrecords := records_append_self f k.group r
    cases k with
    | event | decision | context => exact absurd rfl hissues
    | tool | model =>
      simp only [Counter.group, phase_tool, phase_model] at hrecords hphase
      simp only [RunFiles.issued, Counter.group, hrecords, List.filter_append, List.filter_singleton,
        hphase, cond_false, List.append_nil]
  · exact issued_congr (records_append_ne f hg r)

theorem recount_append_closing {f : RunFiles} {g : Group} {r : Record} (h : Closing g r.phase)
    {k : Counter} (hk : k ≠ .context) : (f.append g r).recount k = f.recount k := by
  by_cases hg : k.group = g
  · obtain ⟨hissues, hphase⟩ := h k hg
    have hphase := beq_eq_false_iff_ne.mpr hphase
    subst hg
    have hrecords := records_append_self f k.group r
    cases k with
    | event | decision | context => exact absurd rfl hissues
    | tool | model =>
      simp only [Counter.group, phase_tool, phase_model] at hrecords hphase
      simp only [RunFiles.recount, Counter.group, hrecords, List.countP_append,
        List.countP_singleton, hphase, Bool.false_eq_true, if_false, Nat.add_zero]
  · exact recount_congr hk (records_append_ne f hg r)

theorem Inv.appendRecord (h : Inv s) {g : Group} {r : Record → Record} (hg : ∀ c, Closing g (r c).phase)
    (hr : ∀ c, (r c).sequence = c.sequence) : Inv (s.appendRecord g r) := by
  unfold State.appendRecord
  dsimp only
  have hsequences := h.sequences_append g (r := r s.correlated.correlation) (hr _)
  constructor
  · intro k
    rw [issued_append_closing (hg _)]
    exact h.ids k
  · intro k
    rw [issued_append_closing (hg _)]
    exact h.below k
  · intro k hk
    rw [recount_append_closing (hg _) hk]
    exact h.recounted k hk
  · exact h.commands
  · exact h.commandsBelow
  · exact hsequences.1
  · exact hsequences.2
  · exact h.evidence
  · exact h.numbered

theorem group_injective {k k' : Counter} (h : k'.group = k.group) : k' = k := by
  cases k <;> cases k' <;> first | rfl | cases h

theorem issued_append_issuing (f : RunFiles) (k : Counter) {r : Record} (h : r.phase = k.phase)
    (k' : Counter) :
    (f.append k.group r).issued k' = if k' = k then f.issued k' ++ [r.id] else f.issued k' := by
  split
  next hk =>
    subst hk
    have hrecords := records_append_self f k'.group r
    have hphase : (r.phase == k'.phase) = true := beq_iff_eq.mpr h
    cases k' with
    | event | decision | context =>
      simp only [Counter.group] at hrecords
      simp only [RunFiles.issued, Counter.group, hrecords, List.map_append, List.map_cons,
        List.map_nil]
    | tool | model =>
      simp only [Counter.group, phase_tool, phase_model] at hrecords hphase
      simp only [RunFiles.issued, Counter.group, hrecords, List.filter_append, List.filter_singleton,
        hphase, cond_true, List.map_append, List.map_cons, List.map_nil]
  next hk => exact issued_congr (records_append_ne f (fun hg => hk (group_injective hg)) r)

theorem recount_append_issuing (f : RunFiles) (k : Counter) {r : Record} (h : r.phase = k.phase)
    {k' : Counter} (hk' : k' ≠ .context) :
    (f.append k.group r).recount k' = if k' = k then f.recount k' + 1 else f.recount k' := by
  split
  next hk =>
    subst hk
    have hrecords := records_append_self f k'.group r
    have hphase : (r.phase == k'.phase) = true := beq_iff_eq.mpr h
    cases k' with
    | context => exact absurd rfl hk'
    | event | decision =>
      simp only [Counter.group] at hrecords
      simp only [RunFiles.recount, Counter.group, hrecords, List.length_append, List.length_singleton]
    | tool | model =>
      simp only [Counter.group, phase_tool, phase_model] at hrecords hphase
      simp only [RunFiles.recount, Counter.group, hrecords, List.countP_append,
        List.countP_singleton, hphase, if_true]
  next hk => exact recount_congr hk' (records_append_ne f (fun hg => hk (group_injective hg)) r)

/-- **A new id** is one that was not given before. -/
theorem Inv.issueRecord (h : Inv s) (k : Counter) {fields : Fields} (hid : fields.id = none)
    (hsequence : fields.sequence = none) (r : Record → Record) :
    Inv (s.issueRecord k fields r) := by
  unfold State.issueRecord State.appendRecord State.correlated State.correlation
  dsimp only
  generalize hrecord : Record.mk _ _ _ _ _ _ _ _ _ _ _ _ _ _ = record
  have hphase : record.phase = k.phase := by rw [← hrecord]
  have hrid : record.id = k.idAt (s.ledger.counters k) := by rw [← hrecord, hid]; rfl
  have hrsequence : record.sequence = s.ledger.sequence + 1 := by rw [← hrecord, hsequence]; rfl
  have hsequences := h.sequences_append k.group hrsequence
  constructor
  · intro k'
    rw [issued_append_issuing _ _ hphase]
    split
    next hk =>
      subst hk
      rw [hrid, List.nodup_append]
      refine ⟨h.ids k', List.nodup_singleton _, ?_⟩
      intro id hmem id' hmem' heq
      obtain rfl := List.mem_singleton.mp hmem'
      obtain ⟨i, hi, rfl⟩ := h.below k' id hmem
      have := Counter.idAt_injective heq
      omega
    next => exact h.ids k'
  · intro k' id hmem
    rw [issued_append_issuing _ _ hphase] at hmem
    dsimp only
    split at hmem
    next hk =>
      rw [if_pos hk]
      rcases List.mem_append.mp hmem with hmem | hmem
      · obtain ⟨i, hi, rfl⟩ := h.below k' id hmem
        exact ⟨i, by omega, rfl⟩
      · subst hk
        rw [List.mem_singleton.mp hmem, hrid]
        exact ⟨_, by omega, rfl⟩
    next hk =>
      rw [if_neg hk]
      exact h.below k' id hmem
  · intro k' hk'
    rw [recount_append_issuing _ _ hphase hk']
    have := h.recounted k' hk'
    dsimp only
    split <;> omega
  · exact h.commands
  · exact h.commandsBelow
  · exact hsequences.1
  · exact hsequences.2
  · exact h.evidence
  · exact h.numbered

/-! ## Files -/

/-- How two names end. -/
private theorem ending_eq {name name' : Text} (h : name = name') :
    ending name = ending name' ∧ (ending name).take 4 = (ending name').take 4 :=
  ⟨congrArg ending h, congrArg (fun name => (ending name).take 4) h⟩

theorem Numbered.not_isOutput {n : Nat} {name : Text} (h : Numbered n name) : ¬ IsOutput name := by
  intro hsome
  obtain ⟨cmdId, hname | hname⟩ := hsome
  all_goals
    have hend := ending_eq hname
    cases h with
    | packet a h => simp at hend
    | exception h tag => simp at hend
    | unparsed h tag => simp [take_ending_unparsedName] at hend

theorem packetName_fresh (n : Nat) (a : Bool) : ¬ Numbered n (packetName a n) := by
  intro h
  generalize hname : packetName a n = name at h
  have hend := ending_eq hname
  cases h with
  | packet a' h =>
    have := packetName_injective hname
    omega
  | exception h tag => simp at hend
  | unparsed h tag => simp [take_ending_unparsedName] at hend

theorem exceptionName_fresh (n : Nat) (tag : Text) : ¬ Numbered n (exceptionName n tag) := by
  intro h
  generalize hname : exceptionName n tag = name at h
  have hend := ending_eq hname
  cases h with
  | packet a h => simp at hend
  | exception h tag' =>
    have := exceptionName_injective hname
    omega
  | unparsed h tag' => simp [take_ending_unparsedName] at hend

theorem unparsedName_fresh (n : Nat) (tag : Text) : ¬ Numbered n (unparsedName n tag) := by
  intro h
  generalize hname : unparsedName n tag = name at h
  have hend := ending_eq hname
  cases h with
  | packet a h => simp [take_ending_unparsedName] at hend
  | exception h tag' => simp [take_ending_unparsedName] at hend
  | unparsed h tag' =>
    have := unparsedName_injective hname
    omega

/-- **The next number** names a file that was not written before. -/
theorem Inv.numberedEvidence (h : Inv s) {name : Nat → Text} (hname : ∀ n, Numbered (n + 1) (name n))
    (hfresh : ∀ n, ¬ Numbered n (name n)) : Inv (s.numberedEvidence name) := by
  refine { h with recounted := fun k hk => ?_, evidence := ?_, numbered := ?_ }
  · have hrecount : (s.numberedEvidence name).files.recount k = s.files.recount k := by
      apply recount_congr hk
      rfl
    rw [hrecount]
    exact h.recounted k hk
  · show (s.files.evidence ++ [name s.ledger.diagnosticsSeq]).Nodup
    rw [List.nodup_append]
    refine ⟨h.evidence, List.nodup_singleton _, ?_⟩
    intro old hold new hnew heq
    subst heq
    rw [List.mem_singleton.mp hnew] at hold
    rcases h.numbered _ hold with hout | hnum
    · exact (hname _).not_isOutput hout
    · exact hfresh _ hnum
  · intro file hfile
    rcases List.mem_append.mp hfile with hfile | hfile
    · exact (h.numbered file hfile).imp_right fun hnum => hnum.mono (Nat.le_succ _)
    · rw [List.mem_singleton.mp hfile]
      exact Or.inr (hname _)

/-- Output is kept under an id of which there is none yet. -/
theorem Inv.commandOutput (h : Inv s) {cmdId : Text} (hout : stdoutName cmdId ∉ s.files.evidence)
    (herr : stderrName cmdId ∉ s.files.evidence) :
    Inv { s with
      files := (s.files.writeEvidence (stdoutName cmdId)).writeEvidence (stderrName cmdId) } := by
  refine { h with recounted := fun k hk => ?_, evidence := ?_, numbered := ?_ }
  · have hrecount : ((s.files.writeEvidence (stdoutName cmdId)).writeEvidence
        (stderrName cmdId)).recount k = s.files.recount k := by
      apply recount_congr hk
      rfl
    rw [hrecount]
    exact h.recounted k hk
  · show (s.files.evidence ++ [stdoutName cmdId] ++ [stderrName cmdId]).Nodup
    have hne : stdoutName cmdId ≠ stderrName cmdId := by
      intro heq
      have hend := ending_eq heq
      simp at hend
    rw [List.append_assoc, List.nodup_append]
    refine ⟨h.evidence, by simpa using hne, ?_⟩
    intro old hold new hnew he
    subst he
    simp only [List.cons_append, List.nil_append, List.mem_cons, List.not_mem_nil, or_false] at hnew
    rcases hnew with rfl | rfl
    · exact hout hold
    · exact herr hold
  · intro file hfile
    rcases List.mem_append.mp hfile with hfile | hfile
    · rcases List.mem_append.mp hfile with hfile | hfile
      · exact h.numbered file hfile
      · exact Or.inl ⟨cmdId, Or.inl (List.mem_singleton.mp hfile)⟩
    · exact Or.inl ⟨cmdId, Or.inr (List.mem_singleton.mp hfile)⟩

/-- A command gets an id that was not given before. -/
theorem Inv.commandIssued (h : Inv s) :
    Inv { ledger := { s.ledger with commandSeq := s.ledger.commandSeq + 1 }
          files := { s.files with
            commands := s.files.commands ++ [commandId s.ledger.commandSeq] } } := by
  refine { h with commands := ?_, commandsBelow := ?_ }
  · show (s.files.commands ++ [commandId s.ledger.commandSeq]).Nodup
    rw [List.nodup_append]
    refine ⟨h.commands, List.nodup_singleton _, ?_⟩
    intro old hold new hnew he
    subst he
    obtain ⟨i, hi, heq⟩ := h.commandsBelow _ hold
    rw [List.mem_singleton.mp hnew] at heq
    have := commandId_injective heq
    omega
  · intro id hid
    rcases List.mem_append.mp hid with hid | hid
    · obtain ⟨i, hi, rfl⟩ := h.commandsBelow id hid
      exact ⟨i, Nat.lt_succ_of_lt hi, rfl⟩
    · exact ⟨_, Nat.lt_succ_self _, List.mem_singleton.mp hid⟩

/-! ## Calls -/

/-- The invariant, with no context above the events. -/
structure Good (s : State) : Prop where
  inv : Inv s
  covered : Covered s

/-- **An event covers** all that was written before it. -/
theorem Inv.good_logEvent (h : Inv s) (henabled : s.ledger.config.enabled = true) (type : Text)
    {fields : Fields} (hid : fields.id = none) (hsequence : fields.sequence = none) :
    Good (s.logEvent type fields) := by
  unfold State.logEvent
  rw [if_pos henabled]
  refine ⟨h.issueRecord .event hid hsequence _, ?_⟩
  intro c hc
  have hc : c ∈ s.files.records .contexts := hc
  have hmem : c.sequence ∈ s.files.sequences :=
    List.mem_flatMap.mpr ⟨.contexts, List.mem_cons_self, List.mem_map_of_mem hc⟩
  have hle := h.bounded _ hmem
  refine ⟨_, List.mem_append_right _ (List.mem_singleton_self _), ?_⟩
  show c.sequence ≤ fields.sequence.getD (s.ledger.sequence + 1)
  rw [hsequence]
  show c.sequence ≤ s.ledger.sequence + 1
  omega

theorem Good.logEvent (h : Good s) (type : Text) {fields : Fields} (hid : fields.id = none)
    (hsequence : fields.sequence = none) : Good (s.logEvent type fields) := by
  by_cases henabled : s.ledger.config.enabled = true
  · exact h.inv.good_logEvent henabled type hid hsequence
  · unfold State.logEvent
    rw [if_neg henabled]
    exact h

theorem Good.congr (h : Good s) (hrecords : s'.files.records = s.files.records)
    (hcommands : s'.files.commands = s.files.commands)
    (hevidence : s'.files.evidence = s.files.evidence)
    (hcounters : s'.ledger.counters = s.ledger.counters)
    (hcommandSeq : s'.ledger.commandSeq = s.ledger.commandSeq)
    (hdiagnosticsSeq : s'.ledger.diagnosticsSeq = s.ledger.diagnosticsSeq)
    (hsequence : s.ledger.sequence ≤ s'.ledger.sequence) : Good s' := by
  refine ⟨h.inv.congr hrecords hcommands hevidence hcounters hcommandSeq hdiagnosticsSeq hsequence,
    ?_⟩
  unfold Covered
  rw [hrecords]
  exact h.covered

theorem Good.correlated (h : Good s) : Good s.correlated :=
  h.congr rfl rfl rfl rfl rfl rfl (by show s.ledger.sequence ≤ s.ledger.sequence + 1; omega)

theorem closing_finished : Closing .tools "finished".toList := by
  intro k hk
  cases k <;> cases hk
  exact ⟨by decide, by decide⟩

theorem closing_models {phase : Text} (h : phase ≠ "started".toList) : Closing .models phase := by
  intro k hk
  cases k <;> cases hk
  exact ⟨by decide, h⟩

theorem closing_mutations (phase : Text) : Closing .mutations phase := by
  intro k hk
  cases k <;> cases hk

theorem Good.write (h : Good s) (name : Text) : Good { s with files := s.files.write name } :=
  h.congr rfl rfl rfl rfl rfl rfl (Int.le_refl _)

theorem Good.appendRecord (h : Good s) {g : Group} {r : Record → Record}
    (hg : ∀ c, Closing g (r c).phase) (hr : ∀ c, (r c).sequence = c.sequence) :
    Good (s.appendRecord g r) := by
  refine ⟨h.inv.appendRecord hg hr, ?_⟩
  have hcontexts : Group.contexts ≠ g := fun heq => (hg (default : Record) .context heq).1 rfl
  have hevents : Group.events ≠ g := fun heq => (hg (default : Record) .event heq).1 rfl
  unfold Covered State.appendRecord RunFiles.append
  dsimp only
  rw [if_neg hcontexts, if_neg hevents]
  exact h.covered

/-- A numbered file, and the event that tells of it. -/
theorem Good.numberedEvidence (h : Good s) (henabled : s.ledger.config.enabled = true)
    {name : Nat → Text} (hname : ∀ n, Numbered (n + 1) (name n))
    (hfresh : ∀ n, ¬ Numbered n (name n)) (type : Text) {fields : Fields}
    (hid : fields.id = none) (hsequence : fields.sequence = none) :
    Good ((s.numberedEvidence name).logEvent type fields) :=
  (h.inv.numberedEvidence hname hfresh).good_logEvent henabled type hid hsequence

theorem Good.recordException (h : Good s) (phase : Text) : Good (s.recordException phase) := by
  unfold State.recordException
  split
  next henabled =>
    exact h.numberedEvidence henabled (fun n => .exception (Nat.lt_succ_self n) _)
      (fun n => exceptionName_fresh n _) _ rfl rfl
  next => exact h

theorem Good.recordUnparsedResponse (h : Good s) (reason : Text) :
    Good (s.recordUnparsedResponse reason) := by
  unfold State.recordUnparsedResponse
  split
  next henabled =>
    exact h.numberedEvidence henabled (fun n => .unparsed (Nat.lt_succ_self n) _)
      (fun n => unparsedName_fresh n _) _ rfl rfl
  next => exact h

theorem Good.logDiagnostics (h : Good s) (actionable : Bool) :
    Good (s.logDiagnostics actionable) := by
  unfold State.logDiagnostics
  split
  next henabled =>
    exact h.numberedEvidence henabled (fun n => .packet actionable (Nat.lt_succ_self n))
      (fun n => packetName_fresh n actionable) _ rfl rfl
  next => exact h

theorem Good.logToolResult (h : Good s) (r : ToolResult) : Good (s.logToolResult r) := by
  unfold State.logToolResult
  split
  next =>
    dsimp only
    refine Good.logEvent (Good.appendRecord ?_ ?_ ?_) _ ?_ ?_
    · split
      · exact h.write _
      · exact h
    · exact fun _ => closing_finished
    · exact fun _ => rfl
    all_goals rfl
  next => exact h

theorem Good.logModelCallFinished (h : Good s) (role model callId error : Text) :
    Good (s.logModelCallFinished role model callId error) := by
  unfold State.logModelCallFinished
  split
  next =>
    dsimp only
    refine Good.logEvent (Good.appendRecord ?_ ?_ ?_) _ ?_ ?_
    · split
      · exact h.recordException _
      · exact h
    · have hphase : (if (!error.isEmpty) = true then "failed".toList else "finished".toList) ≠
          "started".toList := by split <;> decide
      exact fun _ => closing_models hphase
    · exact fun _ => rfl
    all_goals rfl
  next => exact h

/-- What closes the open records keeps the invariant. -/
theorem Good.closeTools (h : Good s) : Good s.closeTools := by
  unfold State.closeTools
  generalize State.openRecords _ _ _ = records
  induction records generalizing s with
  | nil => exact h
  | cons r records ih => exact ih (h.logToolResult _)

theorem Good.closeModels (h : Good s) : Good s.closeModels := by
  unfold State.closeModels
  generalize State.openRecords _ _ _ = records
  induction records generalizing s with
  | nil => exact h
  | cons r records ih => exact ih (h.logModelCallFinished _ _ _ _)

theorem first_good (runId : Text) (config : Config) : Good (State.first runId config) := by
  refine ⟨⟨?_, ?_, ?_, ?_, ?_, ?_, ?_, ?_, ?_⟩, fun c hc => by cases hc⟩
  all_goals
    simp [State.first, openLedger, RunFiles.empty, RunFiles.issued, RunFiles.recount,
      RunFiles.sequences, RunFiles.sequencesOf, Group.files]
  all_goals
    intro k
    cases k <;> simp

/-- No record of the files has a number above the greatest. -/
theorem le_maxSequence {f : RunFiles} {n : Int} (h : n ∈ f.sequencesOf Group.files) :
    n ≤ f.maxSequence := by
  unfold RunFiles.maxSequence
  obtain ⟨m, hm⟩ := Option.isSome_iff_exists.mp (List.isSome_max?_of_mem h)
  rw [hm]
  exact (List.max?_eq_some_iff.mp hm).2 n h

/-- **A run that is opened again** has all that was given below its counters. -/
theorem Good.reopen (h : Good s) (config : Config) (hkept : Kept s (.reopen config)) :
    Good (s.reopen config) := by
  obtain ⟨hcontexts, hcommands, hdiagnostics⟩ := hkept
  have hcounters : ∀ k, s.ledger.counters k ≤ s.files.recount k := by
    intro k
    by_cases hk : k = .context
    · subst hk
      exact hcontexts
    · exact h.inv.recounted k hk
  refine ⟨{ h.inv with below := ?_, recounted := ?_, commandsBelow := ?_, bounded := ?_, numbered := ?_ },
    h.covered⟩
  · intro k id hid
    obtain ⟨i, hi, rfl⟩ := h.inv.below k id hid
    exact ⟨i, Nat.lt_of_lt_of_le hi (hcounters k), rfl⟩
  · exact fun _ _ => Nat.le_refl _
  · intro id hid
    obtain ⟨i, hi, rfl⟩ := h.inv.commandsBelow id hid
    exact ⟨i, Nat.lt_of_lt_of_le hi hcommands, rfl⟩
  · intro n hn
    have hfiles : ∀ g ∈ Group.files, ∀ r ∈ s.files.records g, r.sequence ≤ s.files.maxSequence :=
      fun g hg r hr => le_maxSequence (List.mem_flatMap.mpr ⟨g, hg, List.mem_map_of_mem hr⟩)
    obtain ⟨g, hg, hn⟩ := List.mem_flatMap.mp hn
    obtain ⟨r, hr, rfl⟩ := List.mem_map.mp hn
    rcases List.mem_cons.mp hg with rfl | hg
    · obtain ⟨e, he, hle⟩ := h.covered r hr
      exact Int.le_trans hle (hfiles .events List.mem_cons_self e he)
    · exact hfiles g hg r hr
  · intro name hname
    exact (h.inv.numbered name hname).imp_right fun hnum => hnum.mono hdiagnostics

/-- What an enabled ledger writes is covered by the event that follows. -/
theorem Good.logDecision (h : Good s) : Good s.logDecision := by
  unfold State.logDecision
  split
  next henabled => exact (h.inv.issueRecord .decision rfl rfl _).good_logEvent henabled _ rfl rfl
  next => exact h

theorem Good.logToolCall (h : Good s) : Good s.logToolCall := by
  unfold State.logToolCall
  split
  next henabled => exact (h.inv.issueRecord .tool rfl rfl _).good_logEvent henabled _ rfl rfl
  next => exact h

theorem Good.logModelCallStarted (h : Good s) (role model : Text) :
    Good (s.logModelCallStarted role model) := by
  unfold State.logModelCallStarted
  split
  next henabled => exact (h.inv.issueRecord .model rfl rfl _).good_logEvent henabled _ rfl rfl
  next => exact h

theorem Good.start (h : Good s) : Good s.start := by
  unfold State.start
  split
  next henabled =>
    have hinv : Inv { s.correlated with
        files := { s.correlated.files with manifest := some .running } } :=
      h.inv.correlated.congr rfl rfl rfl rfl rfl rfl (Int.le_refl _)
    exact (hinv.good_logEvent henabled _ rfl rfl).logEvent _ rfl rfl
  next => exact h

theorem Good.logMutationFinished (h : Good s) (transactionId : Text) (applied : Bool) :
    Good (s.logMutationFinished transactionId applied) := by
  unfold State.logMutationFinished
  split
  next henabled =>
    have hinv := h.inv.appendRecord (g := .mutations) (r := fun c =>
      { c with keys := c.keys ++ ["transaction_id", "status"], id := transactionId })
      (fun _ => closing_mutations _) (fun _ => rfl)
    exact hinv.good_logEvent henabled _ rfl rfl
  next => exact h

theorem Good.logModelThinking (h : Good s) (callId role model thinking : Text) :
    Good (s.logModelThinking callId role model thinking) := by
  unfold State.logModelThinking
  split
  next henabled =>
    have henabled := (Bool.and_eq_true _ _ ▸ henabled).1
    refine Inv.good_logEvent (Inv.appendRecord h.inv ?_ ?_) henabled _ ?_ ?_
    · have hphase : "thinking".toList ≠ "started".toList := by decide
      exact fun _ => closing_models hphase
    all_goals intros; rfl
  next => exact h

theorem Good.logCommandStart (h : Good s) : Good s.logCommandStart := by
  unfold State.logCommandStart
  split
  next henabled => exact h.inv.commandIssued.good_logEvent henabled _ rfl rfl
  next => exact h

theorem Good.logCommandFinish (h : Good s) {cmdId : Text} {exitCode : Int} {stdout stderr : Text}
    (hkept : Kept s (.logCommandFinish cmdId exitCode stdout stderr)) :
    Good (s.logCommandFinish cmdId exitCode stdout stderr) := by
  unfold State.logCommandFinish
  split
  next henabled =>
    have henabled := (Bool.and_eq_true _ _ ▸ henabled).1
    dsimp only
    split
    next hkeep =>
      obtain ⟨hout, herr⟩ := hkept hkeep
      exact (h.inv.commandOutput hout herr).good_logEvent henabled _ rfl rfl
    next => exact h.inv.good_logEvent henabled _ rfl rfl
  next => exact h

theorem Good.logContextPreview (h : Good s) {fields : Fields}
    (hkept : Kept s (.logContextPreview fields)) : Good (s.logContextPreview fields) := by
  unfold State.logContextPreview
  split
  next henabled =>
    have henabled := (Bool.and_eq_true _ _ ▸ henabled).1
    dsimp only
    have hinv := h.inv.issueRecord .context hkept.1 hkept.2 fun c =>
      { c with keys := c.keys ++ ["context_id", "model_call_id"], modelCallId := fields.modelCallId }
    split
    · exact (hinv.write _).good_logEvent henabled _ rfl rfl
    · exact hinv.good_logEvent henabled _ rfl rfl
  next => exact h

theorem Good.recordFinalResponse (h : Good s) (finalOutput : Text) :
    Good (s.recordFinalResponse finalOutput) := by
  unfold State.recordFinalResponse
  split
  next henabled =>
    have hinv : Inv { s with files := { s.files with
        finalOutput := some (s.ledger.config.readBack finalOutput) } } :=
      h.inv.congr rfl rfl rfl rfl rfl rfl (Int.le_refl _)
    exact hinv.good_logEvent henabled _ rfl rfl
  next => exact h

theorem Good.summarized (h : Good s) :
    Good (if State.summarizes s.files then { s with files := { s.files with summary := true } }
      else s) := by
  split
  · exact h.congr rfl rfl rfl rfl rfl rfl (Int.le_refl _)
  · exact h

theorem Good.finish (h : Good s) (finalOutput : Text) (status : RunStatus) :
    Good (s.finish finalOutput status) := by
  unfold State.finish
  split
  · exact h
  · have hclosed := h.closeTools.closeModels
    dsimp only
    generalize s.closeTools.closeModels = s₁ at hclosed ⊢
    have hfinal : Good (if s₁.files.finalOutput = some finalOutput then s₁
        else s₁.recordFinalResponse finalOutput) := by
      split
      · exact hclosed
      · exact hclosed.recordFinalResponse finalOutput
    generalize (if s₁.files.finalOutput = some finalOutput then s₁
      else s₁.recordFinalResponse finalOutput) = s₂ at hfinal ⊢
    have hmanifest : Good (if s₂.files.manifest.isNone = true then s₂.correlated else s₂) := by
      split
      · exact hfinal.correlated
      · exact hfinal
    generalize (if s₂.files.manifest.isNone = true then s₂.correlated else s₂) = s₃ at hmanifest ⊢
    have hterminal : Good { s₃ with files := { s₃.files with manifest := some status } } :=
      hmanifest.congr rfl rfl rfl rfl rfl rfl (Int.le_refl _)
    refine Good.summarized (Good.correlated (Good.logEvent hterminal _ ?_ ?_))
    all_goals rfl

/-- **One call** gives and writes nothing twice. -/
theorem Good.step (h : Good s) {call : Call} (hkept : Kept s call) : Good (s.step call) := by
  cases call with
  | reopen config => exact h.reopen config hkept
  | start => exact h.start
  | logEvent type fields => exact h.logEvent type hkept.1 hkept.2
  | logDecision => exact h.logDecision
  | logToolCall => exact h.logToolCall
  | logToolResult result => exact h.logToolResult result
  | logModelCallStarted role model => exact h.logModelCallStarted role model
  | logModelCallFinished role model callId error =>
    exact h.logModelCallFinished role model callId error
  | logModelThinking callId role model thinking => exact h.logModelThinking callId role model thinking
  | logCommandStart => exact h.logCommandStart
  | logCommandFinish cmdId exitCode stdout stderr => exact h.logCommandFinish hkept
  | logDiagnostics actionable => exact h.logDiagnostics actionable
  | recordException phase => exact h.recordException phase
  | recordUnparsedResponse reason => exact h.recordUnparsedResponse reason
  | logMutationFinished transactionId applied => exact h.logMutationFinished transactionId applied
  | logContextPreview fields => exact h.logContextPreview hkept
  | recordFinalResponse finalOutput => exact h.recordFinalResponse finalOutput
  | finish finalOutput status => exact h.finish finalOutput status

/-- **Runs that are opened again** only when no file is missing for a counter give no id
and no number twice, and write no file of evidence twice. -/
theorem reopened_runs_distinct (runId : Text) (config : Config) (calls : List Call)
    (h : Along State.step Kept (State.first runId config) calls) :
    Always State.step (fun s => s.files.Distinct) (State.first runId config) calls := by
  have hgood : Always State.step Good (State.first runId config) calls :=
    always_of_along (fun _ _ hs hkept => hs.step hkept) (first_good runId config) h
  exact always_iff.mpr fun before hp => (always_iff.mp hgood before hp).inv.distinct

/-- A configuration of the example runs. -/
private def plain : Config := ⟨true, false, true, id, Char.isAlphanum, id⟩

/-- A command that failed left its output, so the next one has the next number. -/
theorem reopened_runs_distinct_example :
    Always State.step (fun s => s.files.Distinct) (State.first "run_1".toList plain)
      [.start, .logCommandStart, .logCommandFinish "cmd_000".toList 1 [] [], .reopen plain,
        .logCommandStart] :=
  reopened_runs_distinct _ _ _ ⟨trivial, trivial, fun _ => by decide,
    ⟨by decide, by decide, by decide⟩, trivial, trivial⟩

/-- The command has no file yet, and tracebacks do not count: the second command has the id
of the first, and the second traceback takes the place of the first. -/
theorem reopened_run_repeats :
    ¬ Always State.step (fun s => s.files.Distinct) (State.first "run_1".toList plain)
      [.start, .logCommandStart, .recordException "model".toList, .reopen plain,
        .recordException "model".toList, .logCommandStart] := by
  intro h
  have hlast := always_iff.mp h _ (List.prefix_refl _)
  have hrepeated : ¬ (run State.step (State.first "run_1".toList plain)
      [.start, .logCommandStart, .recordException "model".toList, .reopen plain,
        .recordException "model".toList, .logCommandStart]).files.evidence.Nodup := by
    decide
  exact hrepeated hlast.evidence

end Shamsu.Ledger
