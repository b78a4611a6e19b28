import Mathlib.Order.Lattice.Nat
import VolStream.Reader.Index

/-!
# Logical step resolution

Steps carry arbitrary lists of logical ids; a restarted simulation repeats ids it has already
used. The reader's logical map must send an id to the *last* step carrying it. It is built by
overwriting while the steps are scanned in ascending order, and the scan order is recovered by
sorting, because the directory listing is alphabetical.

`Indexed` is what the built index guarantees, `SessionInv` what any mix of jumps and sequential
advances keeps, and `session_resolves` collects the consequences.
-/

namespace VolStream

open CString

/-! ## The file of a committed history -/

/-- The children of `/step` after committing `ms`, one group per step in order. -/
def stepGroups (ms : List Step) : Table Path (Option Step) :=
  (List.range ms.length).map fun p => (stepName p, ms[p]?)

/-- `dir` is what a reader finds for the history `ms`; before the first step `/step` may or may
not exist. -/
def IsDirOf (ms : List Step) (dir : StepDir) : Prop :=
  dir = some (stepGroups ms) ∨ (ms = [] ∧ dir = none)

/-- Physical step `p` of the history carries the logical id. -/
def Carries (ms : List Step) (id p : Nat) : Prop := ∃ m, ms[p]? = some m ∧ id ∈ m.logicalIds

/-! ## Listing and re-sorting -/

theorem find?_map_stepName (f : Nat → Option Step) (l : List Nat) (p : Nat) :
    Table.find? (l.map fun q => (stepName q, f q)) (stepName p)
      = if p ∈ l then some (f p) else none := by
  induction l with
  | nil => rfl
  | cons q l ih =>
    rw [List.map_cons, Table.find?_cons]
    by_cases hqp : q = p
    · subst hqp
      simp
    · have hname : stepName q ≠ stepName p := fun h => hqp (decimal_injective h)
      rw [if_neg hname, ih]
      simp [Ne.symm hqp]

theorem find?_stepGroups (ms : List Step) (p : Nat) (hp : p < ms.length) :
    Table.find? (stepGroups ms) (stepName p) = some ms[p]? := by
  rw [stepGroups, find?_map_stepName, if_pos (List.mem_range.mpr hp)]

/-- Whatever the listing order, the collected step numbers sort to `0, …, n - 1`. -/
theorem sorted_collectSteps (ms : List Step) (hlen : ms.length ≤ ullongMax) :
    (collectSteps (stepGroups ms)).insertionSort (· ≤ ·) = List.range ms.length := by
  have hkeys : (stepGroups ms).keys = (List.range ms.length).map stepName := by
    simp [Table.keys, stepGroups, Function.comp_def]
  have hparse : ((List.range ms.length).map stepName).filterMap strtoull = List.range ms.length := by
    rw [List.filterMap_map]
    rw [List.filterMap_congr (g := some)]
    · exact List.filterMap_some
    · intro p hp
      exact strtoull_decimal (by have := List.mem_range.mp hp; omega)
  have hperm : (collectSteps (stepGroups ms)).Perm (List.range ms.length) := by
    rw [← hparse, collectSteps, iterateNames, hkeys]
    exact (List.perm_insertionSort _ _).filterMap _
  refine List.Perm.eq_of_pairwise' (r := (· ≤ ·)) ?_ ?_ ((List.perm_insertionSort _ _).trans hperm)
  · exact List.pairwise_insertionSort _ _
  · exact List.pairwise_lt_range.imp Nat.le_of_lt

/-! ## The logical map -/

/-- Setting one step's ids: those ids now map to the step. -/
theorem find?_setIds (ids : List Nat) (map : Table Nat Nat) (p id : Nat) :
    Table.find? (ids.foldl (fun map lid => logicalMapSet map lid p) map) id
      = if id ∈ ids then some p else map.find? id := by
  induction ids generalizing map with
  | nil => simp
  | cons lid ids ih =>
    rw [List.foldl_cons, ih, logicalMapSet, Table.find?_set]
    by_cases h : lid = id
    · simp [h]
    · simp [h, Ne.symm h]

theorem nodup_keys_setIds (ids : List Nat) {map : Table Nat Nat} (h : map.keys.Nodup) (p : Nat) :
    (ids.foldl (fun map lid => logicalMapSet map lid p) map).keys.Nodup := by
  induction ids generalizing map with
  | nil => exact h
  | cons lid ids ih => exact ih (Table.nodup_keys_set h lid p)

/-- The scan's invariant after the steps below `k`: ids map to the last of those carrying them. -/
structure ScannedBelow (ms : List Step) (k : Nat) (fs : Reader) : Prop where
  nodup : fs.logicalMap.keys.Nodup
  find : ∀ id p, fs.logicalMap.find? id = some p ↔
    IsGreatest {q | Carries ms id q ∧ q < k} p

theorem scannedBelow_zero {ms : List Step} {fs : Reader} (h : fs.logicalMap = []) :
    ScannedBelow ms 0 fs := by
  refine ⟨by simp [h, Table.keys], fun id p => ?_⟩
  simp [h, IsGreatest]

/-- Scanning step `k` overwrites the ids it carries and keeps the others. -/
theorem scannedBelow_succ {ms : List Step} {k : Nat} {fs : Reader} (h : ScannedBelow ms k fs)
    {m : Step} (hm : ms[k]? = some m) (fs' : Reader)
    (hmap : fs'.logicalMap
      = m.logicalIds.foldl (fun map lid => logicalMapSet map lid k) fs.logicalMap) :
    ScannedBelow ms (k + 1) fs' := by
  refine ⟨by rw [hmap]; exact nodup_keys_setIds _ h.nodup k, fun id p => ?_⟩
  rw [hmap, find?_setIds]
  have hcarries : Carries ms id k ↔ id ∈ m.logicalIds := by simp [Carries, hm]
  by_cases hid : id ∈ m.logicalIds
  · rw [if_pos hid]
    -- step `k` carries the id, and no scanned step is later
    have hk : IsGreatest {q | Carries ms id q ∧ q < k + 1} k :=
      ⟨⟨hcarries.mpr hid, by omega⟩, fun q hq => by have := hq.2; omega⟩
    constructor
    · intro heq
      cases heq
      exact hk
    · intro hp
      rw [hk.unique hp]
  · rw [if_neg hid, h.find id p]
    have hset : {q | Carries ms id q ∧ q < k + 1} = {q | Carries ms id q ∧ q < k} := by
      ext q
      constructor
      · rintro ⟨hq, hlt⟩
        refine ⟨hq, ?_⟩
        rcases Nat.lt_succ_iff_lt_or_eq.mp hlt with hlt | rfl
        · exact hlt
        · exact absurd (hcarries.mp hq) hid
      · rintro ⟨hq, hlt⟩
        exact ⟨hq, by omega⟩
    rw [hset]

/-- The scan over all steps succeeds; only the indexes change. -/
theorem runAll_readerIndexOneStep (ms : List Step) (fs : Reader) (hmap : fs.logicalMap = []) :
    ∀ k ≤ ms.length, ∃ fs', Outcome.runAll (readerIndexOneStep (stepGroups ms)) (List.range k) fs
        = .ok fs' ∧ ScannedBelow ms k fs' ∧ fs'.nStepsTotal = fs.nStepsTotal ∧
        fs'.currentStep = fs.currentStep ∧ fs'.stepState = fs.stepState := by
  intro k
  induction k with
  | zero =>
    intro _
    exact ⟨fs, rfl, scannedBelow_zero hmap, rfl, rfl, rfl⟩
  | succ k ih =>
    intro hk
    obtain ⟨fs₁, hrun, hscan, hn, hcur, hst⟩ := ih (by omega)
    obtain ⟨m, hm⟩ : ∃ m, ms[k]? = some m := ⟨_, List.getElem?_eq_getElem (by omega)⟩
    have hstep : readerIndexOneStep (stepGroups ms) k fs₁ = .ok { fs₁ with
        stepLogicalIds := fs₁.stepLogicalIds.set k m.logicalIds
        logicalMap := m.logicalIds.foldl (fun map lid => logicalMapSet map lid k) fs₁.logicalMap
        pathIndex := m.entries.foldl (fun idx e => indexEntry idx k e.kind e.path) fs₁.pathIndex } := by
      rw [readerIndexOneStep, find?_stepGroups ms k (by omega), hm]
    rw [List.range_succ, Outcome.runAll_append, hrun, Outcome.bind_ok, Outcome.runAll_cons, hstep]
    exact ⟨_, rfl, scannedBelow_succ hscan hm _ rfl, hn, hcur, hst⟩

/-! ## The built index -/

/-- What the built index guarantees: the number of steps, and the logical map in ascending
order of ids, each at the last step carrying it. -/
structure Indexed (ms : List Step) (fs : Reader) : Prop where
  built : fs.indexBuilt = true
  total : fs.nStepsTotal = ms.length
  sorted : fs.logicalMap.keys.Pairwise (· < ·)
  find : ∀ id p, fs.logicalMap.find? id = some p ↔ IsGreatest {q | Carries ms id q} p

/-- Sorting the map by id keeps its lookups. -/
theorem find?_sortLogicalMap {map : Table Nat Nat} (h : map.keys.Nodup) (id : Nat) :
    (sortLogicalMap map).find? id = map.find? id := by
  have hperm : (sortLogicalMap map).Perm map := List.perm_insertionSort _ _
  have hnodup : (sortLogicalMap map).keys.Nodup := (hperm.map Prod.fst).nodup_iff.mpr h
  apply Option.ext
  intro p
  rw [Table.find?_eq_some_iff hnodup, Table.find?_eq_some_iff h, hperm.mem_iff]

theorem keys_sortLogicalMap_pairwise {map : Table Nat Nat} (h : map.keys.Nodup) :
    (sortLogicalMap map).keys.Pairwise (· < ·) := by
  have hperm : (sortLogicalMap map).Perm map := List.perm_insertionSort _ _
  have hnodup : (sortLogicalMap map).keys.Nodup := (hperm.map Prod.fst).nodup_iff.mpr h
  have hkeys : (sortLogicalMap map).keys = map.keys.insertionSort (· ≤ ·) :=
    List.map_insertionSort _ (· ≤ ·) Prod.fst map (fun _ _ _ _ => Iff.rfl)
  have hle : (sortLogicalMap map).keys.Pairwise (· ≤ ·) := by
    rw [hkeys]
    exact List.pairwise_insertionSort _ _
  exact (hle.and hnodup).imp fun h => by omega

theorem carries_lt {ms : List Step} {id p : Nat} (h : Carries ms id p) : p < ms.length := by
  obtain ⟨m, hm, _⟩ := h
  exact (List.getElem?_eq_some_iff.mp hm).1

/-- Building the index on the file of a committed history succeeds and leaves the cursor. -/
theorem readerBuildIndex_spec {ms : List Step} {dir : StepDir} (hdir : IsDirOf ms dir)
    (hlen : ms.length ≤ ullongMax) (fs : Reader) (hmap : fs.logicalMap = [])
    (htotal : fs.nStepsTotal = 0) :
    ∃ fs', readerBuildIndex dir fs = .ok fs' ∧ Indexed ms fs' ∧
      fs'.currentStep = fs.currentStep ∧ fs'.stepState = fs.stepState := by
  rcases hdir with rfl | ⟨rfl, rfl⟩
  · have hsteps := sorted_collectSteps ms hlen
    obtain ⟨fs₁, hrun, hscan, hn, hcur, hst⟩ := runAll_readerIndexOneStep ms
      { fs with nStepsTotal := ms.length, stepLogicalIds := List.replicate ms.length [] } hmap
      ms.length (Nat.le_refl _)
    have hbuild : readerBuildIndex (some (stepGroups ms)) fs
        = .ok { fs₁ with logicalMap := sortLogicalMap fs₁.logicalMap, indexBuilt := true } := by
      simp only [readerBuildIndex, hsteps, List.length_range]
      rw [if_neg (by simp), hrun]
      rfl
    refine ⟨_, hbuild, ⟨rfl, hn, keys_sortLogicalMap_pairwise hscan.nodup, fun id p => ?_⟩, hcur, hst⟩
    have hset : {q | Carries ms id q ∧ q < ms.length} = {q | Carries ms id q} := by
      ext q
      exact ⟨fun h => h.1, fun h => ⟨h, carries_lt h⟩⟩
    rw [find?_sortLogicalMap hscan.nodup, hscan.find, hset]
  · refine ⟨_, rfl, ⟨rfl, htotal, by simp [hmap, Table.keys], fun id p => ?_⟩, rfl, rfl⟩
    simp [hmap, Carries, IsGreatest]

theorem ensureIndex_of_indexed {ms : List Step} {dir : StepDir} {fs : Reader}
    (h : Indexed ms fs) : ensureIndex dir fs = .ok fs := by
  rw [ensureIndex, if_pos h.built]

/-! ## One call on a built index -/

/-- A move of the cursor: to a step of the file, or none at all. -/
theorem readerAdvance_spec {ms : List Step} {dir : StepDir} {fs : Reader} (h : Indexed ms fs)
    (target : Option Nat) :
    readerAdvance dir target fs
      = if target.getD fs.next < ms.length then
          .ok { fs with currentStep := target.getD fs.next, stepState := .reading }
        else .fail fs := by
  rw [readerAdvance, ensureIndex_of_indexed h, Outcome.bind_ok]
  rw [h.total]
  by_cases hlt : target.getD fs.next < ms.length
  · rw [if_neg (by omega), if_pos hlt]
  · rw [if_pos (by omega), if_neg hlt]

/-- A jump goes to the last step carrying the id, and fails exactly when there is none. -/
theorem beginLogicalStep_spec {ms : List Step} {fs : Reader} (h : Indexed ms fs)
    (dir : StepDir) (id : Nat) :
    (∃ p, IsGreatest {q | Carries ms id q} p ∧
      beginLogicalStep dir id fs = .ok { fs with currentStep := p, stepState := .reading }) ∨
    ((∀ p, ¬ Carries ms id p) ∧ beginLogicalStep dir id fs = .fail fs) := by
  rw [beginLogicalStep, ensureIndex_of_indexed h, Outcome.bind_ok]
  cases hfind : fs.logicalMap.find? id with
  | some p =>
    have hp := (h.find id p).mp hfind
    left
    refine ⟨p, hp, ?_⟩
    simp only
    rw [readerAdvance_spec h, if_pos]
    · rfl
    · exact carries_lt hp.1
  | none =>
    right
    refine ⟨fun p hp => ?_, rfl⟩
    -- a bounded non-empty set of steps has a greatest element
    have hbdd : BddAbove {q | Carries ms id q} := ⟨ms.length, fun q hq => (carries_lt hq).le⟩
    have hgreat : IsGreatest {q | Carries ms id q} (sSup {q | Carries ms id q}) :=
      ⟨Nat.sSup_mem ⟨p, hp⟩ hbdd, fun q hq => le_csSup hbdd hq⟩
    rw [(h.find id _).mpr hgreat] at hfind
    cases hfind

/-! ## Sessions -/

inductive ReaderOp where
  | beginStep
  | beginLogicalStep (logicalId : Nat)
  | getLogicalSteps (cap : Nat)
deriving DecidableEq, Repr

/-- A reader and the steps its successful advances reached, in order. -/
structure Session where
  reader : Reader
  visited : List Nat

-- an advance that succeeded reached the step the cursor is on now
def Session.after (visited : List Nat) : Outcome Reader → Session
  | .ok fs => ⟨fs, visited ++ [fs.currentStep]⟩
  | .fail fs => ⟨fs, visited⟩

def Session.apply (dir : StepDir) (s : Session) : ReaderOp → Session
  | .beginStep => .after s.visited (VolStream.beginStep dir s.reader)
  | .beginLogicalStep id => .after s.visited (VolStream.beginLogicalStep dir id s.reader)
  | .getLogicalSteps cap => { s with reader := (VolStream.getLogicalSteps dir cap s.reader).1.state }

/-- Any sequence of calls on a freshly opened file. -/
def Session.run (dir : StepDir) (ops : List ReaderOp) : Session :=
  ops.foldl (Session.apply dir) ⟨Reader.init, []⟩

/-- The invariant of a session once the index is built: the cursor is on the last step reached,
which is a step of the file. -/
structure SessionInv (ms : List Step) (s : Session) : Prop where
  indexed : Indexed ms s.reader
  visited_lt : ∀ p ∈ s.visited, p < ms.length
  cursor : (s.reader.stepState = .reading ∧ s.visited.getLast? = some s.reader.currentStep) ∨
    (s.reader.stepState ≠ .reading ∧ s.visited = [])

/-- The step a sequential advance must go to: the one after the last step reached. -/
def Session.following (s : Session) : Nat :=
  match s.visited.getLast? with
  | none => 0
  | some p => p + 1

theorem SessionInv.next_eq {ms : List Step} {s : Session} (h : SessionInv ms s)
    (hlen : ms.length ≤ ullongMax) : s.reader.next = s.following := by
  rcases h.cursor with ⟨hreading, hlast⟩ | ⟨hnot, hnil⟩
  · have hlt := h.visited_lt _ (List.mem_of_getLast? hlast)
    have hmax : ullongMax = 2 ^ 64 - 1 := rfl
    rw [Reader.next, if_pos hreading, Session.following, hlast, Nat.mod_eq_of_lt (by omega)]
  · rw [Reader.next, if_neg hnot, Session.following, hnil]
    rfl

/-- Moving to a step of the file keeps the invariant. -/
theorem SessionInv.moved {ms : List Step} {s : Session} (h : SessionInv ms s) {p : Nat}
    (hp : p < ms.length) :
    SessionInv ms ⟨{ s.reader with currentStep := p, stepState := .reading }, s.visited ++ [p]⟩ := by
  refine ⟨⟨h.indexed.built, h.indexed.total, h.indexed.sorted, h.indexed.find⟩, ?_, .inl ⟨rfl, ?_⟩⟩
  · intro q hq
    rcases List.mem_append.mp hq with hq | hq
    · exact h.visited_lt q hq
    · rw [List.mem_singleton.mp hq]
      exact hp
  · simp

theorem SessionInv.apply {ms : List Step} {s : Session} (h : SessionInv ms s)
    (dir : StepDir) (op : ReaderOp) : SessionInv ms (s.apply dir op) := by
  cases op with
  | beginStep =>
    rw [Session.apply, VolStream.beginStep, readerAdvance_spec h.indexed]
    split
    · rename_i hlt
      exact h.moved hlt
    · exact h
  | beginLogicalStep id =>
    rw [Session.apply]
    rcases beginLogicalStep_spec h.indexed dir id with ⟨p, hp, heq⟩ | ⟨_, heq⟩
    · rw [heq]
      exact h.moved (carries_lt hp.1)
    · rw [heq]
      exact h
  | getLogicalSteps cap =>
    rw [Session.apply, VolStream.getLogicalSteps, ensureIndex_of_indexed h.indexed]
    exact h

/-- The reader right after building its index. -/
def Reader.built (dir : StepDir) : Reader := (readerBuildIndex dir Reader.init).state

theorem readerBuildIndex_init {ms : List Step} {dir : StepDir} (hdir : IsDirOf ms dir)
    (hlen : ms.length ≤ ullongMax) :
    readerBuildIndex dir Reader.init = .ok (Reader.built dir) ∧
      SessionInv ms ⟨Reader.built dir, []⟩ := by
  obtain ⟨fs, hbuild, hindexed, _, hst⟩ :=
    readerBuildIndex_spec hdir hlen Reader.init rfl rfl
  have hbuilt : Reader.built dir = fs := by rw [Reader.built, hbuild]; rfl
  rw [hbuilt, hbuild]
  refine ⟨rfl, hindexed, by simp, .inr ⟨?_, rfl⟩⟩
  rw [hst]
  decide

/-- The first call on a fresh reader builds the index and goes on as on a built one. -/
theorem calls_init {ms : List Step} {dir : StepDir} (hdir : IsDirOf ms dir)
    (hlen : ms.length ≤ ullongMax) :
    beginStep dir Reader.init = beginStep dir (Reader.built dir) ∧
      (∀ id, beginLogicalStep dir id Reader.init = beginLogicalStep dir id (Reader.built dir)) ∧
      ∀ cap, getLogicalSteps dir cap Reader.init = getLogicalSteps dir cap (Reader.built dir) := by
  have h := readerBuildIndex_init hdir hlen
  have hensure : ensureIndex dir Reader.init = ensureIndex dir (Reader.built dir) := by
    rw [ensureIndex_of_indexed h.2.indexed]
    exact h.1
  refine ⟨?_, fun id => ?_, fun cap => ?_⟩
  · rw [beginStep, beginStep, readerAdvance, readerAdvance, hensure]
  · rw [beginLogicalStep, beginLogicalStep, hensure]
  · rw [getLogicalSteps, getLogicalSteps, hensure]

/-- After any calls at all, the index is either not built yet on a fresh reader, or the
session's invariant holds. -/
theorem session_inv {ms : List Step} {dir : StepDir} (hdir : IsDirOf ms dir)
    (hlen : ms.length ≤ ullongMax) (ops : List ReaderOp) :
    Session.run dir ops = ⟨Reader.init, []⟩ ∨ SessionInv ms (Session.run dir ops) := by
  induction ops using List.reverseRecOn with
  | nil => exact .inl rfl
  | append_singleton ops op ih =>
    rw [Session.run, List.foldl_append, List.foldl_cons, List.foldl_nil]
    right
    rcases ih with hinit | hinv
    · have hbuilt := (readerBuildIndex_init hdir hlen).2.apply dir op
      obtain ⟨hseq, hjump, hget⟩ := calls_init hdir hlen
      have happly : (⟨Reader.init, []⟩ : Session).apply dir op
          = (⟨Reader.built dir, []⟩ : Session).apply dir op := by
        cases op <;> simp only [Session.apply, hseq, hjump, hget]
      rw [Session.run] at hinit
      rw [hinit, happly]
      exact hbuilt
    · exact hinv.apply dir op

/-! ## Resolution -/

/-- What a reader in state `s` of a session on the history `ms` can rely on. -/
structure Resolves (ms : List Step) (dir : StepDir) (s : Session) : Prop where
  jump_iff : ∀ id, (beginLogicalStep dir id s.reader).isOk = true ↔ ∃ p, Carries ms id p
  jump_last : ∀ id fs, beginLogicalStep dir id s.reader = .ok fs →
    IsGreatest {p | Carries ms id p} fs.currentStep ∧ fs.stepState = .reading
  jump_fail : ∀ id fs, beginLogicalStep dir id s.reader = .fail fs →
    fs.currentStep = s.reader.currentStep ∧ fs.stepState = s.reader.stepState
  report : ∃ ids : List Nat, ids.Pairwise (· < ·) ∧ (∀ id, id ∈ ids ↔ ∃ p, Carries ms id p) ∧
    ∀ cap, (getLogicalSteps dir cap s.reader).1.isOk = true ∧
      (getLogicalSteps dir cap s.reader).2 = (ids.take cap, ids.length)
  next_iff : (beginStep dir s.reader).isOk = true ↔ s.following < ms.length
  next_step : ∀ fs, beginStep dir s.reader = .ok fs →
    fs.currentStep = s.following ∧ fs.stepState = .reading
  next_fail : ∀ fs, beginStep dir s.reader = .fail fs →
    fs.currentStep = s.reader.currentStep ∧ fs.stepState = s.reader.stepState
  visited_lt : ∀ p ∈ s.visited, p < ms.length

theorem SessionInv.resolves {ms : List Step} {s : Session} (h : SessionInv ms s) (dir : StepDir)
    (hlen : ms.length ≤ ullongMax) : Resolves ms dir s := by
  have hjump := beginLogicalStep_spec h.indexed dir
  have hnext : beginStep dir s.reader
      = if s.following < ms.length then
          .ok { s.reader with currentStep := s.following, stepState := .reading }
        else .fail s.reader := by
    rw [beginStep, readerAdvance_spec h.indexed, Option.getD_none, h.next_eq hlen]
  refine ⟨fun id => ?_, fun id fs hok => ?_, fun id fs hfail => ?_, ?_, ?_, fun fs hok => ?_,
    fun fs hfail => ?_, h.visited_lt⟩
  · rcases hjump id with ⟨p, hp, heq⟩ | ⟨hnone, heq⟩
    · simpa [heq] using ⟨p, hp.1⟩
    · simpa [heq] using hnone
  · rcases hjump id with ⟨p, hp, heq⟩ | ⟨_, heq⟩
    · rw [heq] at hok
      cases hok
      exact ⟨hp, rfl⟩
    · rw [heq] at hok
      cases hok
  · rcases hjump id with ⟨p, _, heq⟩ | ⟨_, heq⟩
    · rw [heq] at hfail
      cases hfail
    · rw [heq] at hfail
      cases hfail
      exact ⟨rfl, rfl⟩
  · refine ⟨s.reader.logicalMap.keys, h.indexed.sorted, fun id => ?_, fun cap => ?_⟩
    · rw [Table.mem_keys_iff, Option.isSome_iff_exists]
      constructor
      · rintro ⟨p, hp⟩
        exact ⟨p, ((h.indexed.find id p).mp hp).1⟩
      · rintro ⟨p, hp⟩
        rcases hjump id with ⟨q, hq, _⟩ | ⟨hnone, _⟩
        · exact ⟨q, (h.indexed.find id q).mpr hq⟩
        · exact absurd hp (hnone p)
    · rw [getLogicalSteps, ensureIndex_of_indexed h.indexed]
      simp [Table.keys, List.map_take]
  · rw [hnext]
    split <;> simp_all
  · rw [hnext] at hok
    split at hok
    · cases hok
      exact ⟨rfl, rfl⟩
    · cases hok
  · rw [hnext] at hfail
    split at hfail
    · cases hfail
    · cases hfail
      exact ⟨rfl, rfl⟩

/-- In every session on a committed history, jumps resolve to the last step carrying the id,
each carried id is reported once in ascending order, failed advances leave the cursor, and
advances stay inside the file and go to the step after the last one reached. -/
theorem session_resolves (ms : List Step) (dir : StepDir) (hdir : IsDirOf ms dir)
    (hlen : ms.length ≤ ullongMax) (ops : List ReaderOp) :
    Resolves ms dir (Session.run dir ops) := by
  rcases session_inv hdir hlen ops with hinit | hinv
  · obtain ⟨hseq, hjump, hget⟩ := calls_init hdir hlen
    have hbuilt := (readerBuildIndex_init hdir hlen).2.resolves dir hlen
    obtain ⟨fs, hbuild, _, hcur, hst⟩ := readerBuildIndex_spec hdir hlen Reader.init rfl rfl
    have hfs : Reader.built dir = fs := by rw [Reader.built, hbuild]; rfl
    rw [← hfs] at hcur hst
    rw [hinit]
    refine ⟨?_, ?_, ?_, ?_, ?_, ?_, ?_, hbuilt.visited_lt⟩
    · simpa only [hjump] using hbuilt.jump_iff
    · simpa only [hjump] using hbuilt.jump_last
    · simpa only [hjump, hcur, hst] using hbuilt.jump_fail
    · simpa only [hget] using hbuilt.report
    · simpa only [hseq, Session.following] using hbuilt.next_iff
    · simpa only [hseq, Session.following] using hbuilt.next_step
    · simpa only [hseq, hcur, hst] using hbuilt.next_fail
  · exact hinv.resolves dir hlen

/-- A restarted run: step 2 repeats logical id 7 of step 0. -/
theorem session_resolves_restart :
    IsDirOf [⟨0, [7], 0, [], 0⟩, ⟨1, [8, 8], 0, [], 0⟩, ⟨2, [7], 0, [], 0⟩]
        (some (stepGroups [⟨0, [7], 0, [], 0⟩, ⟨1, [8, 8], 0, [], 0⟩, ⟨2, [7], 0, [], 0⟩])) ∧
      Resolves [⟨0, [7], 0, [], 0⟩, ⟨1, [8, 8], 0, [], 0⟩, ⟨2, [7], 0, [], 0⟩]
        (some (stepGroups [⟨0, [7], 0, [], 0⟩, ⟨1, [8, 8], 0, [], 0⟩, ⟨2, [7], 0, [], 0⟩]))
        (Session.run (some (stepGroups [⟨0, [7], 0, [], 0⟩, ⟨1, [8, 8], 0, [], 0⟩, ⟨2, [7], 0, [], 0⟩]))
          [.beginStep, .beginLogicalStep 9, .beginLogicalStep 7]) :=
  ⟨.inl rfl, session_resolves _ _ (.inl rfl) (by decide) _⟩

end VolStream
