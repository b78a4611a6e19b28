import VolStream.Lib.Channels
import VolStream.Writer.ReplicasAgree

/-!
# Ranks and their concentrators

With concentrators, a step's writes are first brought together: a rank tells its concentrator how many it has and
sends them one by one, and the concentrator receives from one member of its group after the other, before it writes
anything. All of this is blocking, and MPI may or may not take a message before it is received.

The exchange comes to its end, whatever the order of the ranks and whatever MPI holds back, if and only if every write
arrives. A rank that leaves early announces writes it does not send, and its concentrator waits for them.
-/

namespace VolStream

open Channels

/-! ## The ranks -/

/-- What a rank sends: a count (`MPI_INT`, tag 9101), or an entry (`MPI_BYTE`, tag 9102). -/
inductive ShipMsg where
  | count (n : Nat)
  | entry (msg : Bytes)
deriving DecidableEq, Repr

/-- Where a rank is in `H5VL__stream_replay_concentrated_writes`, before the first write. -/
inductive Gathering where
  | announcing (jobs : List WriteJob)
  | shipping (jobs : List WriteJob)
  /-- The concentrator, with `left` entries of the member `source` and then the other `members` still to come. -/
  | gathering (jobs : List WriteJob) (left source : Nat) (members : List Nat)
  | failed
deriving DecidableEq, Repr

section

variable (mpi : Mpi) (big : Bool) (c : H5Codec Datatype Dataspace)

/-- What a concentrator makes of the count it receives. -/
def gotCount (jobs : List WriteJob) (source : Nat) (members : List Nat) : ShipMsg → Gathering
  | .count n => .gathering jobs n source members
  | .entry _ => .failed

/-- `H5VL__stream_recv_entry` and `H5VL__stream_job_list_append`. -/
def gotEntry (jobs : List WriteJob) (left source : Nat) (members : List Nat) : ShipMsg → Gathering
  | .count _ => .failed
  | .entry msg =>
    match recvEntry big c msg with
    | .accept e => .gathering (jobs ++ [receivedJob e]) left source members
    | _ => .failed

/-- The calls a rank makes. -/
def gatheringAct (groupSize rank : Nat) : Gathering → Act Nat Nat ShipMsg Gathering
  | .announcing jobs => .send (concentratorOf groupSize rank) 9101 (.count jobs.length) (.shipping jobs)
  | .shipping [] => .stop
  | .shipping (j :: jobs) =>
    match sendWriteEntryToConcentrator mpi big c j.shipped with
    | none => .stop
    | some msg => .send (concentratorOf groupSize rank) 9102 (.entry msg) (.shipping jobs)
  | .gathering jobs (left + 1) source members => .recv source 9102 (gotEntry big c jobs left source members)
  | .gathering jobs 0 _ (m :: members) => .recv m 9101 (gotCount jobs m members)
  | .gathering _ 0 _ [] => .stop
  | .failed => .stop

/-- The jobs of a rank that is through: a concentrator's are those of its group. -/
def Gathering.result : Gathering → Option (List WriteJob)
  | .shipping [] => some []
  | .gathering jobs 0 _ [] => some jobs
  | _ => none

/-- Every rank at the start, nothing sent yet. -/
def gatheringStart (groupSize : Nat) (ranks : List Core) : Net Nat Nat ShipMsg Gathering where
  states r :=
    match ranks[r]? with
    | none => .gathering [] 0 r []
    | some fs =>
      if concentratorOf groupSize r = r then
        .gathering (writeJobs fs.pending) 0 r (List.range' (r + 1) (min (r + groupSize) ranks.length - (r + 1)))
      else .announcing (writeJobs fs.pending)
  channel _ := []

end

/-- Every rank is through. -/
def AllGathered (ranks : List Core) (net : Net Nat Nat ShipMsg Gathering) : Prop :=
  ∀ r < ranks.length, (net.states r).result.isSome = true

/-! ## One member -/

section

variable {mpi : Mpi} {big : Bool} {c : H5Codec Datatype Dataspace} {groupSize : Nat}
  {net : Net Nat Nat ShipMsg Gathering}

theorem stop_of_result {g : Gathering} (h : g.result.isSome = true) (rank : Nat) :
    gatheringAct mpi big c groupSize rank g = .stop := by
  match g with
  | .shipping [] => rfl
  | .gathering _ 0 _ [] => rfl
  | .announcing _ | .shipping (_ :: _) | .gathering _ (_ + 1) _ _ | .gathering _ 0 _ (_ :: _) | .failed => cases h

/-- A concentrator that does not go on, and is not through. -/
def Halts (mpi : Mpi) (big : Bool) (c : H5Codec Datatype Dataspace) (groupSize concentrator : Nat)
    (net : Net Nat Nat ShipMsg Gathering) : Prop :=
  ∃ w z, SureRun (gatheringAct mpi big c groupSize) w net z ∧ Blocked (gatheringAct mpi big c groupSize) z concentrator ∧
    (z.states concentrator).result = none

theorem Halts.of_run {concentrator w : Nat} {net' : Net Nat Nat ShipMsg Gathering}
    (hrun : SureRun (gatheringAct mpi big c groupSize) w net net') (h : Halts mpi big c groupSize concentrator net') :
    Halts mpi big c groupSize concentrator net := by
  obtain ⟨w', z, hrun', hz⟩ := h
  exact ⟨_, z, hrun.trans hrun', hz⟩

variable (mpi big c)

/-- The entries of one member, from the one it is to send next: all arrive, or the concentrator halts. -/
theorem ship_entries {concentrator m : Nat} (hm : concentratorOf groupSize m = concentrator)
    (jobs done : List WriteJob) (members : List Nat)
    (hmember : net.states m = .shipping jobs)
    (hconc : net.states concentrator = .gathering done jobs.length m members)
    (hchan : net.channel (m, concentrator) = []) :
    (∃ js w z, Parse.mapAll (shipJob mpi big c) jobs = .accept js ∧
      SureRun (gatheringAct mpi big c groupSize) w net z ∧ z.states m = .shipping [] ∧
      z.states concentrator = .gathering (done ++ js) 0 m members ∧
      (∀ r, r ≠ m → r ≠ concentrator → z.states r = net.states r) ∧ z.channel = net.channel) ∨
    ((∀ js, Parse.mapAll (shipJob mpi big c) jobs ≠ .accept js) ∧ Halts mpi big c groupSize concentrator net) := by
  induction jobs generalizing net done with
  | nil =>
    refine .inl ⟨[], 0, net, rfl, .refl _, hmember, ?_, fun _ _ _ => rfl, rfl⟩
    rwa [List.append_nil]
  | cons j jobs ih =>
    have hrecv : gatheringAct mpi big c groupSize concentrator (net.states concentrator)
        = .recv m 9102 (gotEntry big c done jobs.length m members) := by
      rw [hconc]
      rfl
    have hnone : takeTag 9102 (net.channel (m, concentrator)) = none := by
      rw [hchan]
      rfl
    cases hsent : sendWriteEntryToConcentrator mpi big c j.shipped with
    | none =>
      -- the member leaves, and the concentrator waits for the entry
      have hstop : gatheringAct mpi big c groupSize m (net.states m) = .stop := by
        rw [hmember, gatheringAct, hsent]
      refine .inr ⟨fun js hjs => ?_, 0, net, .refl _, .inr ⟨m, 9102, _, hrecv, hnone, hstop⟩, ?_⟩
      · simp only [Parse.mapAll, shipJob, hsent, Parse.bind_reject] at hjs
        cases hjs
      · rw [hconc]
        rfl
    | some msg =>
      have hsend : gatheringAct mpi big c groupSize m (net.states m)
          = .send concentrator 9102 (.entry msg) (.shipping jobs) := by
        rw [hmember, gatheringAct, hsent, hm]
      obtain ⟨next, hmeet, hnextm, hnextc, hnext, hnextchan⟩ := SureRun.of_meet hsend hrecv hnone
      cases hrecvEntry : recvEntry big c msg with
      | accept e =>
        simp only [gotEntry, hrecvEntry] at hnextc
        rcases ih (done ++ [receivedJob e]) hnextm hnextc (by rw [hnextchan]; exact hchan) with
          ⟨js, w, z, hjs, hrun, hzm, hzc, hframe, hzchan⟩ | ⟨hno, hhalts⟩
        · refine .inl ⟨receivedJob e :: js, _, z, ?_, hmeet.trans hrun, hzm, ?_, fun r hrm hrc => ?_,
            hzchan.trans hnextchan⟩
          · simp only [Parse.mapAll, shipJob, hsent, hrecvEntry, Parse.map_accept, Parse.bind_accept, hjs]
          · rw [hzc, List.append_assoc]
            rfl
          · rw [hframe r hrm hrc, hnext r hrm hrc]
        · refine .inr ⟨fun js hjs => ?_, hhalts.of_run hmeet⟩
          rw [Parse.mapAll] at hjs
          obtain ⟨j', -, hjs⟩ := Parse.bind_eq_accept hjs
          obtain ⟨js', hjs', -⟩ := Parse.bind_eq_accept hjs
          exact hno js' hjs'
      | reject | fault =>
        refine .inr ⟨fun js hjs => ?_, 2, _, hmeet, .inl ?_, ?_⟩
        · simp only [Parse.mapAll, shipJob, hsent, hrecvEntry, Parse.map_reject, Parse.bind_reject] at hjs
          cases hjs
        · rw [hnextc]
          simp only [gotEntry, hrecvEntry]
          rfl
        · rw [hnextc]
          simp only [gotEntry, hrecvEntry]
          rfl

/-! ## One group -/

/-- The members of a group from the `m`-th rank on, in their order. -/
theorem ship_members {concentrator m : Nat} (hm : concentrator < m) (members : List Core) (source : Nat)
    (hgroup : ∀ i < members.length, concentratorOf groupSize (m + i) = concentrator) (done : List WriteJob)
    (hmembers : ∀ i fs, members[i]? = some fs → net.states (m + i) = .announcing (writeJobs fs.pending))
    (hconc : net.states concentrator = .gathering done 0 source (List.range' m members.length))
    (hchan : ∀ r, net.channel (r, concentrator) = []) :
    (∃ js w z source', Parse.mapAll (shipJob mpi big c) (members.flatMap fun fs => writeJobs fs.pending) = .accept js ∧
      SureRun (gatheringAct mpi big c groupSize) w net z ∧
      z.states concentrator = .gathering (done ++ js) 0 source' [] ∧
      (∀ i < members.length, z.states (m + i) = .shipping []) ∧
      (∀ r, r ≠ concentrator → (r < m ∨ m + members.length ≤ r) → z.states r = net.states r) ∧
      z.channel = net.channel) ∨
    ((∀ js, Parse.mapAll (shipJob mpi big c) (members.flatMap fun fs => writeJobs fs.pending) ≠ .accept js) ∧
      Halts mpi big c groupSize concentrator net) := by
  induction members generalizing net m source done with
  | nil =>
    refine .inl ⟨[], 0, net, source, rfl, .refl _, ?_, fun i hi => absurd hi (Nat.not_lt_zero i), fun _ _ _ => rfl, rfl⟩
    rw [List.append_nil]
    exact hconc
  | cons fs members ih =>
    have hne : m ≠ concentrator := Nat.ne_of_gt hm
    have hof : concentratorOf groupSize m = concentrator := hgroup 0 (Nat.succ_pos _)
    have hstate : net.states m = .announcing (writeJobs fs.pending) := hmembers 0 fs rfl
    -- the member's count
    have hsend : gatheringAct mpi big c groupSize m (net.states m)
        = .send concentrator 9101 (.count (writeJobs fs.pending).length) (.shipping (writeJobs fs.pending)) := by
      rw [hstate, gatheringAct, hof]
    have hrecv : gatheringAct mpi big c groupSize concentrator (net.states concentrator)
        = .recv m 9101 (gotCount done m (List.range' (m + 1) members.length)) := by
      rw [hconc]
      rfl
    have hnone : takeTag 9101 (net.channel (m, concentrator)) = none := by
      rw [hchan]
      rfl
    obtain ⟨next, hmeet, hnextm, hnextc, hnext, hnextchan⟩ := SureRun.of_meet hsend hrecv hnone
    -- its entries, then the other members
    rcases ship_entries mpi big c hof (writeJobs fs.pending) done (List.range' (m + 1) members.length) hnextm hnextc
        (by rw [hnextchan]; exact hchan m) with ⟨js, w, y, hjs, hrun, hym, hyc, hframe, hychan⟩ | ⟨hno, hhalts⟩
    · have hy : ∀ r, r ≠ m → r ≠ concentrator → y.states r = net.states r := by
        intro r hrm hrc
        rw [hframe r hrm hrc, hnext r hrm hrc]
      have hsucc : ∀ i, m + 1 + i = m + (i + 1) := fun i => by omega
      rcases ih (Nat.lt_succ_of_lt hm) m
          (fun i hi => by
            rw [hsucc]
            exact hgroup (i + 1) (Nat.succ_lt_succ hi))
          (done ++ js)
          (fun i fs' hfs' => by
            rw [hy _ (by omega) (by omega), hsucc]
            exact hmembers (i + 1) fs' hfs')
          hyc (fun r => by rw [hychan, hnextchan]; exact hchan r) with
        ⟨js', w', z, source', hjs', hrun', hzc, hzm, hzframe, hzchan⟩ | ⟨hno, hhalts⟩
      · refine .inl ⟨js ++ js', _, z, source', ?_, (hmeet.trans hrun).trans hrun', ?_, fun i hi => ?_, fun r hrc hr => ?_, ?_⟩
        · rw [List.flatMap_cons, Parse.mapAll_append, hjs, Parse.bind_accept, hjs', Parse.map_accept]
        · rw [hzc, List.append_assoc]
        · cases i with
          | zero =>
            rw [Nat.add_zero, hzframe m hne (.inl (Nat.lt_succ_self m)), hym]
          | succ i =>
            rw [← hsucc]
            exact hzm i (Nat.lt_of_succ_lt_succ hi)
        · rw [List.length_cons] at hr
          rw [hzframe r hrc (by omega), hy r (by omega) hrc]
        · rw [hzchan, hychan, hnextchan]
      · refine .inr ⟨fun js'' hjs'' => ?_, hhalts.of_run (hmeet.trans hrun)⟩
        rw [List.flatMap_cons, Parse.mapAll_append, hjs, Parse.bind_accept] at hjs''
        obtain ⟨js', hjs', -⟩ := Parse.bind_eq_accept hjs''
        exact hno js' hjs'
    · refine .inr ⟨fun js hjs => ?_, hhalts.of_run hmeet⟩
      rw [List.flatMap_cons, Parse.mapAll_append] at hjs
      obtain ⟨js', hjs', -⟩ := Parse.bind_eq_accept hjs
      exact hno js' hjs'

/-- A group starts with its concentrator. -/
theorem group_eq {concentrator : Nat} {ranks : List Core} {own : Core} (hsize : 0 < groupSize)
    (hown : ranks[concentrator]? = some own) :
    (ranks.drop concentrator).take groupSize = own :: (ranks.drop (concentrator + 1)).take (groupSize - 1) := by
  obtain ⟨n, rfl⟩ := Nat.exists_eq_add_of_lt hsize
  rw [Nat.zero_add, Nat.add_sub_cancel, List.drop_eq_getElem?_toList_append, hown]
  rfl

theorem concentratorOf_add {concentrator i : Nat} (hconc : concentratorOf groupSize concentrator = concentrator)
    (hi : i < groupSize) : concentratorOf groupSize (concentrator + i) = concentrator := by
  rw [concentratorOf] at hconc ⊢
  obtain ⟨k, hk⟩ : ∃ k, concentrator = k * groupSize := ⟨_, hconc.symm⟩
  rw [hk, Nat.add_comm, Nat.add_mul_div_right _ _ (Nat.zero_lt_of_lt hi), Nat.div_eq_of_lt hi, Nat.zero_add]

theorem le_of_concentratorOf {concentrator r : Nat} (hsize : 0 < groupSize)
    (h : concentratorOf groupSize r = concentrator) : concentrator ≤ r ∧ r < concentrator + groupSize := by
  rw [concentratorOf] at h
  have hmod := Nat.mod_lt r hsize
  have hdiv := Nat.div_add_mod' r groupSize
  omega

/-- A group by itself, with its ranks where they start. -/
theorem gather_group (hsize : 0 < groupSize) {ranks : List Core} {concentrator : Nat} {own : Core}
    (hown : ranks[concentrator]? = some own) (hconc : concentratorOf groupSize concentrator = concentrator)
    (hstart : ∀ r, concentratorOf groupSize r = concentrator →
      net.states r = (gatheringStart groupSize ranks).states r)
    (hchan : ∀ r, net.channel (r, concentrator) = []) :
    (∃ js w z, groupJobs mpi big c ((ranks.drop concentrator).take groupSize) = .accept js ∧
      SureRun (gatheringAct mpi big c groupSize) w net z ∧ (z.states concentrator).result = some js ∧
      (∀ r, concentratorOf groupSize r = concentrator → (z.states r).result.isSome = true) ∧
      (∀ r, concentratorOf groupSize r ≠ concentrator → z.states r = net.states r) ∧ z.channel = net.channel) ∨
    ((∀ js, groupJobs mpi big c ((ranks.drop concentrator).take groupSize) ≠ .accept js) ∧
      Halts mpi big c groupSize concentrator net) := by
  obtain ⟨hlt, -⟩ := List.getElem?_eq_some_iff.mp hown
  have hlen : ((ranks.drop (concentrator + 1)).take (groupSize - 1)).length
      = min (concentrator + groupSize) ranks.length - (concentrator + 1) := by
    rw [List.length_take, List.length_drop]
    omega
  have hself : net.states concentrator = .gathering (writeJobs own.pending) 0 concentrator
      (List.range' (concentrator + 1) ((ranks.drop (concentrator + 1)).take (groupSize - 1)).length) := by
    rw [hstart concentrator hconc, hlen]
    simp only [gatheringStart, hown, if_pos hconc]
  have hgroup : ∀ i < ((ranks.drop (concentrator + 1)).take (groupSize - 1)).length,
      concentratorOf groupSize (concentrator + 1 + i) = concentrator := by
    intro i hi
    rw [Nat.add_assoc]
    exact concentratorOf_add hconc (by omega)
  have hmembers : ∀ i fs, ((ranks.drop (concentrator + 1)).take (groupSize - 1))[i]? = some fs →
      net.states (concentrator + 1 + i) = .announcing (writeJobs fs.pending) := by
    intro i fs hfs
    have hi : i < ((ranks.drop (concentrator + 1)).take (groupSize - 1)).length :=
      (List.getElem?_eq_some_iff.mp hfs).1
    rw [List.getElem?_take_of_lt (by rw [hlen] at hi; omega), List.getElem?_drop] at hfs
    rw [hstart _ (hgroup i hi)]
    have hother : concentratorOf groupSize (concentrator + 1 + i) ≠ concentrator + 1 + i := by
      rw [hgroup i hi]
      omega
    simp only [gatheringStart, hfs, if_neg hother]
  rw [group_eq hsize hown, groupJobs]
  rcases ship_members mpi big c (Nat.lt_succ_self concentrator)
      ((ranks.drop (concentrator + 1)).take (groupSize - 1)) concentrator hgroup (writeJobs own.pending)
      hmembers hself hchan with
    ⟨js, w, z, source, hjs, hrun, hzc, hzm, hframe, hzchan⟩ | ⟨hno, hhalts⟩
  · refine .inl ⟨writeJobs own.pending ++ js, w, z, by rw [hjs, Parse.map_accept], hrun, ?_, fun r hof => ?_,
      fun r hof => ?_, hzchan⟩
    · rw [hzc]
      rfl
    · obtain ⟨hle, hlt'⟩ := le_of_concentratorOf hsize hof
      by_cases hrc : r = concentrator
      · rw [hrc, hzc]
        rfl
      · by_cases hr : r < ranks.length
        · obtain ⟨i, rfl⟩ := Nat.exists_eq_add_of_le (show concentrator + 1 ≤ r by omega)
          rw [hzm i (by omega)]
          rfl
        · -- there is no such rank
          rw [hframe r hrc (.inr (by omega)), hstart r hof]
          simp only [gatheringStart, List.getElem?_eq_none (Nat.le_of_not_lt hr)]
          rfl
    · have hrc : r ≠ concentrator := fun h => hof (h ▸ hconc)
      refine hframe r hrc ?_
      by_cases hr : r < concentrator + 1
      · exact .inl hr
      · refine .inr (Nat.le_of_not_lt fun hr' => hof ?_)
        obtain ⟨i, rfl⟩ := Nat.exists_eq_add_of_le (Nat.le_of_not_lt hr)
        exact hgroup i (by omega)
  · refine .inr ⟨fun js hjs => ?_, hhalts⟩
    obtain ⟨js', hjs', -⟩ := Parse.bind_eq_accept hjs
    exact hno js' hjs'

/-- A group that is the first to do anything. -/
theorem gather_group_first (hsize : 0 < groupSize) {ranks : List Core} {concentrator : Nat}
    (hlt : concentrator < ranks.length) (hconc : concentratorOf groupSize concentrator = concentrator) :
    (∃ js w z, groupJobs mpi big c ((ranks.drop concentrator).take groupSize) = .accept js ∧
      SureRun (gatheringAct mpi big c groupSize) w (gatheringStart groupSize ranks) z ∧
      (z.states concentrator).result = some js) ∨
    ((∀ js, groupJobs mpi big c ((ranks.drop concentrator).take groupSize) ≠ .accept js) ∧
      Halts mpi big c groupSize concentrator (gatheringStart groupSize ranks)) := by
  have hstart : ∀ r, concentratorOf groupSize r = concentrator →
      (gatheringStart groupSize ranks).states r = (gatheringStart groupSize ranks).states r := fun _ _ => rfl
  have hchan : ∀ r, (gatheringStart groupSize ranks).channel (r, concentrator) = [] := fun _ => rfl
  rcases gather_group mpi big c hsize (List.getElem?_eq_getElem hlt) hconc hstart hchan with
    ⟨js, w, z, hjs, hrun, hz, -⟩ | hno
  · exact .inl ⟨js, w, z, hjs, hrun, hz⟩
  · exact .inr hno

/-! ## All groups -/

/-- One group after the other. -/
theorem gather_groups (hsize : 0 < groupSize) {ranks : List Core} {concentrators : List Nat}
    (hconcs : ∀ r ∈ concentrators, r < ranks.length ∧ concentratorOf groupSize r = r) (hnodup : concentrators.Nodup)
    (hstart : ∀ r, concentratorOf groupSize r ∈ concentrators →
      net.states r = (gatheringStart groupSize ranks).states r)
    (hchan : ∀ p, net.channel p = []) {jss : List (List WriteJob)}
    (hjss : Parse.mapAll (groupJobs mpi big c) (concentrators.map fun r => (ranks.drop r).take groupSize)
      = .accept jss) :
    ∃ w z, SureRun (gatheringAct mpi big c groupSize) w net z ∧
      (∀ r, concentratorOf groupSize r ∈ concentrators → (z.states r).result.isSome = true) ∧
      ∀ r, concentratorOf groupSize r ∉ concentrators → z.states r = net.states r := by
  induction concentrators generalizing net jss with
  | nil => exact ⟨0, net, .refl _, fun r hr => absurd hr List.not_mem_nil, fun _ _ => rfl⟩
  | cons r rs ih =>
    rw [List.map_cons, Parse.mapAll] at hjss
    obtain ⟨js, hjs, hjss⟩ := Parse.bind_eq_accept hjss
    obtain ⟨jss', hjss', -⟩ := Parse.bind_eq_accept hjss
    obtain ⟨hlt, hself⟩ := hconcs r List.mem_cons_self
    obtain ⟨hfresh, hnodup'⟩ := List.nodup_cons.mp hnodup
    rcases gather_group mpi big c hsize (List.getElem?_eq_getElem hlt) hself
        (fun r' hr' => hstart r' (hr' ▸ List.mem_cons_self)) (fun r' => hchan (r', r)) with
      ⟨_, w, y, -, hrun, -, hdone, hframe, hychan⟩ | ⟨hno, -⟩
    · have hother : ∀ r', concentratorOf groupSize r' ∈ rs → concentratorOf groupSize r' ≠ r := by
        intro r' hr' h
        exact hfresh (h ▸ hr')
      obtain ⟨w', z, hrun', hdone', hframe'⟩ := ih (fun r' hr' => hconcs r' (List.mem_cons_of_mem r hr'))
        hnodup' (fun r' hr' => (hframe r' (hother r' hr')).trans (hstart r' (List.mem_cons_of_mem r hr')))
        (fun p => by rw [hychan]; exact hchan p) hjss'
      refine ⟨_, z, hrun.trans hrun', fun r' hof => ?_, fun r' hof => ?_⟩
      · by_cases hrs : concentratorOf groupSize r' ∈ rs
        · exact hdone' r' hrs
        · rw [hframe' r' hrs]
          exact hdone r' ((List.mem_cons.mp hof).resolve_right hrs)
      · rw [hframe' r' fun h => hof (List.mem_cons_of_mem r h), hframe r' fun h => hof (h ▸ List.mem_cons_self)]
    · exact absurd hjs (hno js)

theorem concentratorOf_concentratorOf (hsize : 0 < groupSize) (r : Nat) :
    concentratorOf groupSize (concentratorOf groupSize r) = concentratorOf groupSize r := by
  rw [concentratorOf, concentratorOf, Nat.mul_div_cancel _ hsize]

theorem mem_concentrators {n r : Nat} :
    r ∈ (List.range n).filter (fun r => decide (concentratorOf groupSize r = r)) ↔
      r < n ∧ concentratorOf groupSize r = r := by
  rw [List.mem_filter, List.mem_range, decide_eq_true_eq]

/-- The rank that is through has received what its group sent, and is through on no other terms. -/
theorem result_of_reaches (hsize : 0 < groupSize) {ranks : List Core}
    (hreach : Reaches (gatheringAct mpi big c groupSize) (gatheringStart groupSize ranks) net) {r : Nat}
    (hr : r < ranks.length) (hself : concentratorOf groupSize r = r) {js : List WriteJob}
    (hresult : (net.states r).result = some js) :
    groupJobs mpi big c ((ranks.drop r).take groupSize) = .accept js := by
  have hblocked : Blocked (gatheringAct mpi big c groupSize) net r :=
    .inl (stop_of_result (by rw [hresult]; rfl) r)
  rcases gather_group_first mpi big c hsize hr hself with ⟨js', w, z, hjs', hrun, hz⟩ | ⟨-, w, z, hrun, hz, hnone⟩
  · have hzblocked : Blocked (gatheringAct mpi big c groupSize) z r := .inl (stop_of_result (by rw [hz]; rfl) r)
    rw [hzblocked.unique hrun.reaches hreach hblocked, hz] at hresult
    cases hresult
    exact hjs'
  · rw [hz.unique hrun.reaches hreach hblocked, hnone] at hresult
    cases hresult

/-- Every group gets through by itself, or not at all. -/
theorem mapAll_groupJobs {groups : List (List Core)}
    (h : ∀ group ∈ groups, ∃ js, groupJobs mpi big c group = .accept js) :
    ∃ jss, Parse.mapAll (groupJobs mpi big c) groups = .accept jss := by
  induction groups with
  | nil => exact ⟨[], rfl⟩
  | cons group groups ih =>
    obtain ⟨js, hjs⟩ := h group List.mem_cons_self
    obtain ⟨jss, hjss⟩ := ih fun g hg => h g (List.mem_cons_of_mem group hg)
    exact ⟨js :: jss, by rw [Parse.mapAll, hjs, Parse.bind_accept, hjss, Parse.map_accept]⟩

end

section

variable (mpi : Mpi) (big : Bool) (c : H5Codec Datatype Dataspace) {groupSize : Nat} (hsize : 0 < groupSize)
  (ranks : List Core)

include hsize

/-- Some order of the ranks brings a concentrator through with these jobs if and only if they are its own and then
those of the members behind it, in rank order; so no order brings it through with others. -/
theorem concentrator_through_iff {r : Nat} (hr : r < ranks.length) (hself : concentratorOf groupSize r = r)
    (js : List WriteJob) :
    (∃ net, Reaches (gatheringAct mpi big c groupSize) (gatheringStart groupSize ranks) net ∧
      (net.states r).result = some js) ↔ groupJobs mpi big c ((ranks.drop r).take groupSize) = .accept js := by
  constructor
  · rintro ⟨net, hreach, hresult⟩
    exact result_of_reaches mpi big c hsize hreach hr hself hresult
  · intro hjs
    rcases gather_group_first mpi big c hsize hr hself with ⟨js', w, z, hjs', hrun, hz⟩ | ⟨hno, -⟩
    · cases hjs'.symm.trans hjs
      exact ⟨z, hrun.reaches, hz⟩
    · exact absurd hjs (hno js)

end

theorem concentrator_through_twoWriters : ∃ net,
    Reaches (gatheringAct .standard false scalarCodec 2) (gatheringStart 2 twoWriters) net ∧
      (net.states 0).result = some [⟨['/', 'a'], nativeUchar, ⟨.scalar, .all⟩, [5]⟩,
        ⟨['/', 'b'], nativeUchar, ⟨.scalar, .all⟩, [6]⟩] :=
  (concentrator_through_iff .standard false scalarCodec (by decide) twoWriters (r := 0) (by decide) rfl _).mpr rfl

end VolStream
