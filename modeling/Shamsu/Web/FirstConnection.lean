import Shamsu.Session.Messages
import Shamsu.Web.Stream

/-!
# The first connection to the event stream

A browser that opens the stream for the first time has the conversation already. It starts
at `resume_line`, which is to give it the turn that still runs, whole, and nothing else.

`resume_line` counts records and `tail_events` counts lines. `first_connection_iff`: the two
agree as long as nothing is skipped among as many lines as there are records before the
running turn. `first_connection_repeats` is a file with a blank first line.
-/

namespace Shamsu.Web

open Shamsu.Py

section

variable {R : Type} (kind : R → Option Bool)

/-- The record opens the turn that still runs: neither a `turn.start` nor a `turn.end` is
behind it. -/
def Opens (r : R) (later : List R) : Prop := kind r = some true ∧ ∀ x ∈ later, kind x = none

/-- Every turn has ended: each `turn.start` has a `turn.end` behind it. -/
def AllEnded (rs : List R) : Prop :=
  ∀ earlier r later, rs = earlier ++ r :: later → kind r = some true →
    ∃ x ∈ later, kind x = some false

/-- What a first connection should see: the last turn that has not ended, or nothing. -/
def FirstSees (rs sent : List R) : Prop :=
  (∃ earlier r later, rs = earlier ++ r :: later ∧ Opens kind r later ∧ sent = r :: later) ∨
    (AllEnded kind rs ∧ sent = [])

variable {kind} {rs : List R}

/-- The last record that opens or ends a turn decides, if there is one. -/
theorem openTurn_cases (rs : List R) :
    ((∀ x ∈ rs, kind x = none) ∧ ∀ openAt i, openTurn kind openAt i rs = openAt) ∨
      ∃ earlier r later opened, rs = earlier ++ r :: later ∧ kind r = some opened ∧
        (∀ x ∈ later, kind x = none) ∧
        ∀ openAt i, openTurn kind openAt i rs = if opened then some (i + earlier.length) else none := by
  induction rs with
  | nil => exact .inl ⟨nofun, fun _ _ => rfl⟩
  | cons r rs ih =>
    rcases ih with ⟨hnone, hrest⟩ | ⟨earlier, s, later, opened, rfl, hs, hlater, hrest⟩
    · -- nothing behind `r` counts, so `r` decides
      cases hr : kind r with
      | none =>
        refine .inl ⟨List.forall_mem_cons.mpr ⟨hr, hnone⟩, fun openAt i => ?_⟩
        rw [openTurn, hr]
        exact hrest openAt (i + 1)
      | some opened =>
        refine .inr ⟨[], r, rs, opened, rfl, hr, hnone, fun openAt i => ?_⟩
        rw [openTurn, hr]
        cases opened with
        | true => exact hrest (some i) (i + 1)
        | false => exact hrest none (i + 1)
    · refine .inr ⟨r :: earlier, s, later, opened, rfl, hs, hlater, fun openAt i => ?_⟩
      have hindex : i + 1 + earlier.length = i + (r :: earlier).length := by
        rw [List.length_cons]
        omega
      rw [openTurn]
      split <;> rw [hrest, hindex]

/-- No two records open the turn that still runs. -/
theorem opens_unique {earlier later earlier' later' : List R} {r r' : R}
    (hsplit : earlier ++ r :: later = earlier' ++ r' :: later') (h : Opens kind r later)
    (h' : Opens kind r' later') : earlier = earlier' ∧ r = r' ∧ later = later' := by
  rcases List.append_eq_append_iff.mp hsplit with ⟨more, rfl, hmore⟩ | ⟨more, rfl, hmore⟩
  · cases more with
    | nil =>
      cases hmore
      exact ⟨(List.append_nil _).symm, rfl, rfl⟩
    | cons x more =>
      cases hmore
      have hno := h.2 r' (List.mem_append_right _ List.mem_cons_self)
      rw [h'.1] at hno
      cases hno
  · cases more with
    | nil =>
      cases hmore
      exact ⟨List.append_nil _, rfl, rfl⟩
    | cons x more =>
      cases hmore
      have hno := h'.2 r (List.mem_append_right _ List.mem_cons_self)
      rw [h.1] at hno
      cases hno

theorem Opens.not_allEnded {earlier later : List R} {r : R} (h : Opens kind r later) :
    ¬ AllEnded kind (earlier ++ r :: later) := by
  intro hended
  obtain ⟨x, hx, hend⟩ := hended earlier r later rfl h.1
  rw [h.2 x hx] at hend
  cases hend

/-- Where a turn runs, only that turn should be seen. -/
theorem firstSees_running {earlier later sent : List R} {r : R} (h : Opens kind r later) :
    FirstSees kind (earlier ++ r :: later) sent ↔ sent = r :: later := by
  constructor
  · intro hcase
    rcases hcase with ⟨earlier', r', later', hsplit, hopens, rfl⟩ | ⟨hended, _⟩
    · obtain ⟨_, rfl, rfl⟩ := opens_unique hsplit h hopens
      rfl
    · exact absurd hended h.not_allEnded
  · intro heq
    subst heq
    exact .inl ⟨earlier, r, later, rfl, h, rfl⟩

/-- Where none runs, nothing should. -/
theorem firstSees_ended {sent : List R} (h : AllEnded kind rs) :
    FirstSees kind rs sent ↔ sent = [] := by
  constructor
  · intro hcase
    rcases hcase with ⟨earlier, r, later, rfl, hopens, _⟩ | ⟨_, hsent⟩
    · exact absurd h hopens.not_allEnded
    · exact hsent
  · exact fun hsent => .inr ⟨h, hsent⟩

end

section

variable {R : Type} (loads : Text → Option R) (kind : R → Option Bool)

/-- Of as many lines as there are records before the running turn, each is a record. -/
def CountsAgree (lines : List Text) : Prop :=
  ∀ earlier r later, records loads lines = earlier ++ r :: later → Opens kind r later →
    ∀ line ∈ lines.take earlier.length, (record loads line).isSome = true

variable {loads kind}

/-- Lines of which all that are not skipped are as many as the lines. -/
theorem all_records {lines : List Text} (h : lines.length ≤ (records loads lines).length) :
    ∀ line ∈ lines, (record loads line).isSome = true := by
  induction lines with
  | nil => exact nofun
  | cons line lines ih =>
    cases hline : record loads line with
    | none =>
      -- a skipped line leaves too few
      have hle := records_length_le loads lines
      unfold records at h hle
      rw [List.filterMap_cons_none hline, List.length_cons] at h
      omega
    | some r =>
      unfold records at h
      rw [List.filterMap_cons_some hline, List.length_cons, List.length_cons] at h
      exact List.forall_mem_cons.mpr
        ⟨by rw [hline]; rfl, ih (Nat.le_of_succ_le_succ h)⟩

/-- Some lines on, and as many records on, is the same exactly where no line is skipped. -/
theorem records_drop_eq_iff {lines : List Text} {earlier rest : List R}
    (h : records loads lines = earlier ++ rest) (hrest : rest ≠ []) :
    records loads (lines.drop earlier.length) = rest ↔
      ∀ line ∈ lines.take earlier.length, (record loads line).isSome = true := by
  have hsplit : records loads (lines.take earlier.length) ++
      records loads (lines.drop earlier.length) = earlier ++ rest := by
    rw [← records_append, List.take_append_drop, h]
  have hlen : earlier.length < lines.length := by
    have hle := records_length_le loads lines
    have hpos := List.length_pos_of_ne_nil hrest
    rw [h, List.length_append] at hle
    omega
  have htake : (lines.take earlier.length).length = earlier.length := by
    rw [List.length_take, Nat.min_eq_left hlen.le]
  constructor
  · intro hdrop
    rw [hdrop] at hsplit
    refine all_records ?_
    rw [htake, List.append_cancel_right hsplit]
  · intro hall
    have hcount := records_length_of_all hall
    rw [htake] at hcount
    exact (List.append_inj hsplit hcount).2

variable [BEq R]

/-- What the first poll of a connection sends. -/
theorem received_connect {b : Bytes} {start : Nat} (h : start ≤ (readLines b).length) :
    ((Portal.connect b start).step loads .poll).received =
      records loads ((readLines b).drop start) := by
  have hfresh : (Portal.connect b start : Portal R).fresh = (readLines b).drop start := rfl
  rw [Portal.step_poll h, hfresh]
  have hall := Portal.map_snd_frames (records loads ((readLines b).drop start))
    (readLines b).length (frames (records loads ((readLines b).drop start))
      (readLines b).length).length
  rw [List.take_length] at hall
  show [] ++ (frames (records loads ((readLines b).drop start)) (readLines b).length).map
    Prod.snd = _
  rw [List.nil_append, hall, List.take_of_length_le (by rw [frames, List.length_mapIdx])]

/-- **A first connection** gets the running turn and nothing else, exactly where the two
ways of counting agree. -/
theorem first_connection_iff (loads : Text → Option R) (kind : R → Option Bool) (b : Bytes) :
    FirstSees kind (records loads (readLines b))
        ((Portal.connect b (resumeLine loads kind b)).step loads .poll).received ↔
      CountsAgree loads kind (readLines b) := by
  rw [received_connect (resumeLine_le kind b)]
  have hresume : resumeLine loads kind b =
      if (records loads (readLines b)).isEmpty then 0
      else (openTurn kind none 0 (records loads (readLines b))).getD (readLines b).length := by
    unfold resumeLine
    rw [readFrom_eq (Nat.zero_le _), List.drop_zero]
  -- where no turn runs, the connection starts at the end, or there is nothing to send
  have hended : AllEnded kind (records loads (readLines b)) →
      openTurn kind none 0 (records loads (readLines b)) = none →
      (FirstSees kind (records loads (readLines b))
        (records loads ((readLines b).drop (resumeLine loads kind b))) ↔
        CountsAgree loads kind (readLines b)) := by
    intro hall hopen
    rw [firstSees_ended hall]
    refine iff_of_true ?_ ?_
    · rw [hresume, hopen]
      split
      next hnil =>
        rw [List.drop_zero]
        exact List.isEmpty_iff.mp hnil
      next =>
        rw [Option.getD_none, List.drop_length]
        rfl
    · intro earlier r later hsplit hopens
      rw [hsplit] at hall
      exact absurd hall hopens.not_allEnded
  rcases @openTurn_cases R kind (records loads (readLines b)) with
    ⟨hnone, hopen⟩ | ⟨earlier, r, later, opened, hsplit, hr, hlater, hopen⟩
  · refine hended (fun earlier r later hsplit hr => ?_) (hopen none 0)
    rw [hnone r (hsplit ▸ List.mem_append_right _ List.mem_cons_self)] at hr
    cases hr
  · cases opened with
    | false =>
      refine hended (fun earlier' r' later' hsplit' hr' => ?_) (hopen none 0)
      -- the end is behind every start, since it is the last of both kinds
      rw [hsplit] at hsplit'
      rcases List.append_eq_append_iff.mp hsplit' with ⟨more, _, hmore⟩ | ⟨more, _, hmore⟩
      · cases more with
        | nil =>
          cases hmore
          rw [hr] at hr'
          cases hr'
        | cons x more =>
          cases hmore
          rw [hlater r' (List.mem_append_right _ List.mem_cons_self)] at hr'
          cases hr'
      · cases more with
        | nil =>
          cases hmore
          rw [hr] at hr'
          cases hr'
        | cons x more =>
          cases hmore
          exact ⟨r, List.mem_append_right _ List.mem_cons_self, hr⟩
    | true =>
      have hopens : Opens kind r later := ⟨hr, hlater⟩
      have hstart : resumeLine loads kind b = earlier.length := by
        rw [hresume, hopen none 0, hsplit, if_neg (by simp)]
        exact Nat.zero_add _
      rw [hstart, hsplit, firstSees_running hopens,
        records_drop_eq_iff hsplit (List.cons_ne_nil _ _)]
      constructor
      · intro hall earlier' r' later' hsplit' hopens'
        rw [hsplit] at hsplit'
        obtain ⟨rfl, _⟩ := opens_unique hsplit' hopens hopens'
        exact hall
      · exact fun h => h earlier r later hsplit hopens

end

/-- A record, as the line it stands on. -/
def activityRecord (line : Text) : Option Text :=
  match Session.loads line with
  | some (.object _) => some line
  | _ => none

/-- Whether the `kind` of a record is `turn.start` or `turn.end`. -/
def activityKind (line : Text) : Option Bool :=
  match Session.loads line with
  | some (.object fields) =>
    match fields.lookup ("kind".toList.map Char.toNat) with
    | some (.string s) =>
      if s = "turn.start".toList.map Char.toNat then some true
      else if s = "turn.end".toList.map Char.toNat then some false
      else none
    | _ => none
  | _ => none

/-- A blank line, the status of an old turn, and the start of the one that runs. -/
def blankFirst : Bytes :=
  encodeUtf8 "\n\x7b\"kind\": \"status\"\x7d\n\x7b\"kind\": \"turn.start\"\x7d\n".toList

/-- The status is sent again. -/
theorem first_connection_repeats :
    ¬ ∀ b : Bytes, FirstSees activityKind (records activityRecord (readLines b))
      ((Portal.connect b (resumeLine activityRecord activityKind b)).step activityRecord
        .poll).received := by
  intro h
  have hclaim := h blankFirst
  have hrecords : records activityRecord (readLines blankFirst) =
      ["\x7b\"kind\": \"status\"\x7d".toList] ++ ["\x7b\"kind\": \"turn.start\"\x7d".toList] := by
    decide +kernel
  have hopens : Opens activityKind "\x7b\"kind\": \"turn.start\"\x7d".toList [] :=
    ⟨by decide +kernel, nofun⟩
  rw [received_connect (resumeLine_le activityKind blankFirst), hrecords,
    firstSees_running hopens] at hclaim
  revert hclaim
  decide +kernel

end Shamsu.Web
