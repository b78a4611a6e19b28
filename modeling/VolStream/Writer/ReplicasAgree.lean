import VolStream.Writer.ReplicaWrites

/-!
# The three ways agree

Writes of different ranks that do not overlap commute: what an element holds in the end depends on the writes that
cover it, and these are one rank's, in that rank's order, however the ranks' writes fall. So the three ways leave the
same values, provided each hands over the elements that were captured. The serial loop does, unless it is to rebuild
an empty array from a NULL payload. The other two do not rebuild anything, and one of them sends its jobs through
messages whose length is an `int`.
-/

namespace VolStream

open FirstWins LastWins Wire

/-! ## What one element holds -/

def WriteJob.covers (path : Path) (k : Nat) (j : WriteJob) : Bool := j.path = path ∧ k ∈ j.space.packingOrder

-- the writes applied one after another, each with its captured elements
def Contents.writeAll (base : Datatype → Nat) (f : Contents) (jobs : List WriteJob) : Contents :=
  jobs.foldl (fun f j => f.write j (j.elems base)) f

theorem Contents.write_of_not_covers {f : Contents} {j : WriteJob} {path : Path} {k : Nat}
    (h : j.covers path k = false) (elems : List (Option Bytes)) : f.write j elems path k = f path k := by
  rw [Contents.write]
  by_cases hpath : path = j.path
  · subst hpath
    have hk : k ∉ j.space.packingOrder := fun hk => by simp [WriteJob.covers, hk] at h
    have hnone : lookupLast (j.space.packingOrder.zip (elems.map fun e => (j.type, e))) k = none := by
      rw [lookupLast_eq_none]
      intro p hp hpk
      exact hk (hpk ▸ (List.of_mem_zip hp).1)
    rw [if_pos rfl, hnone, Option.none_or]
  · exact if_neg hpath

theorem Contents.write_congr {f g : Contents} {path : Path} {k : Nat} (h : f path k = g path k) (j : WriteJob)
    (elems : List (Option Bytes)) : f.write j elems path k = g.write j elems path k := by
  rw [Contents.write, Contents.write, h]

theorem Contents.writeAll_congr (base : Datatype → Nat) {f g : Contents} {path : Path} {k : Nat}
    (h : f path k = g path k) (jobs : List WriteJob) : f.writeAll base jobs path k = g.writeAll base jobs path k := by
  induction jobs generalizing f g with
  | nil => exact h
  | cons j jobs ih => exact ih (Contents.write_congr h j _)

/-- Only the writes that cover the element matter. -/
theorem Contents.writeAll_filter (base : Datatype → Nat) (f : Contents) (path : Path) (k : Nat) (jobs : List WriteJob) :
    f.writeAll base jobs path k = f.writeAll base (jobs.filter (WriteJob.covers path k)) path k := by
  induction jobs generalizing f with
  | nil => rfl
  | cons j jobs ih =>
    cases hcovers : j.covers path k with
    | true =>
      rw [List.filter_cons_of_pos hcovers]
      exact ih _
    | false =>
      rw [List.filter_cons_of_neg (by rw [hcovers]; decide), ← ih]
      exact Contents.writeAll_congr base (Contents.write_of_not_covers hcovers _) jobs

/-- Two orders in which the writes of every element fall alike. -/
theorem Contents.writeAll_eq (base : Datatype → Nat) (f : Contents) {jobs jobs' : List WriteJob}
    (h : ∀ path k, jobs.filter (WriteJob.covers path k) = jobs'.filter (WriteJob.covers path k)) :
    f.writeAll base jobs = f.writeAll base jobs' := by
  funext path k
  rw [Contents.writeAll_filter base f path k jobs, h path k, ← Contents.writeAll_filter]

/-! ## A loop over writes -/

/-- A loop that returns has read elements for each write it applied. -/
theorem applied_of_fold {s s' : Replicas} {jobs : List WriteJob} (h : Parse.fold writeReplica s jobs = .accept s')
    {x : WriteJob × List (Option Bytes)} (hx : x ∈ s'.applied) :
    x ∈ s.applied ∨ (x.1 ∈ jobs ∧ x.1.rawElems = .accept x.2) := by
  induction jobs generalizing s with
  | nil =>
    cases h
    exact .inl hx
  | cons j jobs ih =>
    rw [Parse.fold] at h
    obtain ⟨s₁, hone, hrest⟩ := Parse.bind_eq_accept h
    rcases ih hrest with hin | ⟨hmem, hread⟩
    · unfold writeReplica Replicas.write at hone
      split at hone
      · obtain ⟨elems, helems, hs⟩ := Parse.bind_eq_accept hone
        cases hs
        rcases List.mem_append.mp hin with hin | hin
        · exact .inl hin
        · rw [List.mem_singleton] at hin
          subst hin
          exact .inr ⟨List.mem_cons_self, helems⟩
      · cases hone
    · exact .inr ⟨List.mem_cons_of_mem j hmem, hread⟩

/-- A loop whose writes all hand over what was captured. -/
theorem fold_writeReplica (base : Datatype → Nat) {s : Replicas} {jobs : List WriteJob}
    (hcreated : ∀ j ∈ jobs, j.path ∈ s.created) (hreads : ∀ j ∈ jobs, j.rawElems = .accept (j.elems base)) :
    Parse.fold writeReplica s jobs = .accept ⟨s.created, s.contents.writeAll base jobs,
      s.applied ++ jobs.map fun j => (j, j.elems base)⟩ := by
  induction jobs generalizing s with
  | nil =>
    rw [Parse.fold, List.map_nil, List.append_nil]
    rfl
  | cons j jobs ih =>
    have hone : writeReplica s j = .accept { s with
        contents := s.contents.write j (j.elems base), applied := s.applied ++ [(j, j.elems base)] } := by
      rw [writeReplica, Replicas.write, if_pos (hcreated j List.mem_cons_self), hreads j List.mem_cons_self]
      rfl
    have hrest := ih (s := { s with
        contents := s.contents.write j (j.elems base), applied := s.applied ++ [(j, j.elems base)] })
      (fun j' hj' => hcreated j' (List.mem_cons_of_mem j hj')) fun j' hj' => hreads j' (List.mem_cons_of_mem j hj')
    rw [Parse.fold, hone, Parse.bind_accept, hrest, List.map_cons, List.append_assoc]
    rfl

/-! ## The serial loop over a list without duplicates -/

/-- Every write finds its dataset created: in front of the list, or earlier in it. -/
def CreatedFirst (seen : List (Kind × Path)) (ps : List PendingEntry) : Prop :=
  ∀ front pe back, ps = front ++ pe :: back → pe.kind = .dsetWrite →
    (Kind.dsetCreate, pe.path) ∈ seen ∨ ∃ ce ∈ front, ce.kind = .dsetCreate ∧ ce.path = pe.path

theorem CreatedFirst.tail {seen seen' : List (Kind × Path)} {pe : PendingEntry} {ps : List PendingEntry}
    (h : CreatedFirst seen (pe :: ps)) (hseen : ∀ k ∈ seen, k ∈ seen') (hpe : pe.kind = .dsetCreate → pe.key ∈ seen') :
    CreatedFirst seen' ps := by
  rintro front pe' back rfl hwrite
  rcases h (pe :: front) pe' back rfl hwrite with hin | ⟨ce, hce, hkind, hpath⟩
  · exact .inl (hseen _ hin)
  · rcases List.mem_cons.mp hce with rfl | hce
    · refine .inl ?_
      have := hpe hkind
      rwa [PendingEntry.key, hkind, hpath] at this
    · exact .inr ⟨ce, hce, hkind, hpath⟩

theorem CreatedFirst.append {ps ps' : List PendingEntry} (h : CreatedFirst [] ps) (h' : CreatedFirst [] ps') :
    CreatedFirst [] (ps ++ ps') := by
  intro front pe back hsplit hwrite
  rcases List.append_eq_append_iff.mp hsplit with ⟨mid, rfl, hback⟩ | ⟨mid, rfl, hmid⟩
  · rcases h' mid pe back hback hwrite with hnone | ⟨ce, hce, hcreate⟩
    · cases hnone
    · exact .inr ⟨ce, List.mem_append_right ps hce, hcreate⟩
  · cases mid with
    | nil =>
      rcases h' [] pe back hmid.symm hwrite with hnone | ⟨ce, hce, -⟩
      · cases hnone
      · cases hce
    | cons pe' mid =>
      obtain ⟨rfl, -⟩ := List.cons.inj hmid
      exact h front pe mid rfl hwrite

theorem createdFirst_captured {ranks : List Core} (h : ∀ fs ∈ ranks, CreatedFirst [] fs.pending) :
    CreatedFirst [] (captured ranks) := by
  induction ranks with
  | nil =>
    intro front pe back hsplit
    cases front <;> cases hsplit
  | cons fs ranks ih =>
    rw [captured, List.flatMap_cons]
    exact (h fs List.mem_cons_self).append (ih fun fs' hfs' => h fs' (List.mem_cons_of_mem fs hfs'))

theorem writeJobs_cons (pe : PendingEntry) (ps : List PendingEntry) :
    writeJobs (pe :: ps) = writeJobs [pe] ++ writeJobs ps := by
  rw [writeJobs, ← List.singleton_append, List.filter_append, List.map_append, ← writeJobs, ← writeJobs]

theorem writeJobs_of_indexed {pe : PendingEntry} (h : pe.kind.indexed = true) (ps : List PendingEntry) :
    writeJobs (pe :: ps) = writeJobs ps := by
  have hno : pe.kind ≠ .dsetWrite := by
    intro hw
    rw [hw] at h
    cases h
  rw [writeJobs, List.filter_cons_of_neg (by simpa using hno), writeJobs]

/-- An entry that is not a second create of its path. -/
theorem serialEntry_kept (base : Datatype → Nat) (staged : Bool) {s : Replicas} {pe : PendingEntry}
    (hnew : pe.kind = .dsetCreate → pe.path ∉ s.created) (hthere : pe.kind = .dsetWrite → pe.path ∈ s.created)
    (hreads : ∀ j ∈ writeJobs [pe], j.rebuiltElems base staged = .accept (j.elems base)) :
    ∃ created, serialEntry base staged s pe = .accept ⟨created, s.contents.writeAll base (writeJobs [pe]),
        s.applied ++ (writeJobs [pe]).map fun j => (j, j.elems base)⟩ ∧
      ∀ path, path ∈ created ↔ path ∈ s.created ∨ pe.kind = .dsetCreate ∧ pe.path = path := by
  have hnone : pe.kind ≠ .dsetWrite → writeJobs [pe] = [] := fun h => by
    rw [writeJobs, List.filter_cons_of_neg (by simpa using h)]
    rfl
  unfold serialEntry
  cases hkind : pe.kind with
  | dsetCreate =>
    rw [hnone (by rw [hkind]; decide), List.map_nil, List.append_nil, Replicas.create, if_neg (hnew hkind)]
    refine ⟨_, rfl, fun path => ?_⟩
    simp only [List.mem_append, List.mem_singleton, true_and, eq_comm (a := path)]
  | dsetWrite =>
    have hone : writeJobs [pe] = [pe.job] := by
      rw [writeJobs, List.filter_cons_of_pos (by simpa using hkind)]
      rfl
    rw [hone] at hreads ⊢
    have hin : pe.job.path ∈ s.created := hthere hkind
    refine ⟨s.created, ?_, fun path => ?_⟩
    · simp only [Replicas.write, if_pos hin, hreads pe.job List.mem_cons_self]
      rfl
    · simp
  | attr =>
    rw [hnone (by rw [hkind]; decide), List.map_nil, List.append_nil]
    exact ⟨s.created, rfl, fun path => by simp⟩
  | group =>
    rw [hnone (by rw [hkind]; decide), List.map_nil, List.append_nil]
    exact ⟨s.created, rfl, fun path => by simp⟩
  | link =>
    rw [hnone (by rw [hkind]; decide), List.map_nil, List.append_nil]
    exact ⟨s.created, rfl, fun path => by simp⟩

/-- The loop creates each dataset once, in front of its writes, and applies the writes in their order. -/
theorem fold_serialEntry (base : Datatype → Nat) (staged : Bool) {seen : List (Kind × Path)} {s : Replicas}
    {ps : List PendingEntry} (hcreated : ∀ path, path ∈ s.created ↔ (Kind.dsetCreate, path) ∈ seen)
    (hfirst : CreatedFirst seen ps)
    (hreads : ∀ j ∈ writeJobs ps, j.rebuiltElems base staged = .accept (j.elems base)) :
    ∃ created, Parse.fold (serialEntry base staged) s (keepFirst indexKey seen ps) = .accept ⟨created,
        s.contents.writeAll base (writeJobs ps), s.applied ++ (writeJobs ps).map fun j => (j, j.elems base)⟩ ∧
      (∀ path ∈ s.created, path ∈ created) ∧ ∀ ce ∈ ps, ce.kind = .dsetCreate → ce.path ∈ created := by
  induction ps generalizing seen s with
  | nil =>
    refine ⟨s.created, ?_, fun _ h => h, fun _ h => absurd h List.not_mem_nil⟩
    rw [keepFirst, Parse.fold, writeJobs, List.filter_nil, List.map_nil, List.map_nil, List.append_nil]
    rfl
  | cons pe ps ih =>
    rw [writeJobs_cons, List.forall_mem_append] at hreads
    have hkeyOf : ∀ k, indexKey pe = some k → pe.kind.indexed = true ∧ k = pe.key := by
      intro k hk
      unfold indexKey at hk
      split at hk
      · exact ⟨‹_›, (Option.some.inj hk).symm⟩
      · cases hk
    have hcreateKey : pe.kind = .dsetCreate → pe.key = (.dsetCreate, pe.path) := fun h => by rw [PendingEntry.key, h]
    -- an entry that is kept, and the rest behind it
    have hkept : ∀ seen', (∀ k ∈ seen, k ∈ seen') → (pe.kind = .dsetCreate → pe.key ∉ seen) →
        (∀ path, (Kind.dsetCreate, path) ∈ seen' ↔
          (Kind.dsetCreate, path) ∈ seen ∨ pe.kind = .dsetCreate ∧ pe.path = path) →
        ∃ created, Parse.fold (serialEntry base staged) s (pe :: keepFirst indexKey seen' ps) = .accept ⟨created,
            s.contents.writeAll base (writeJobs (pe :: ps)),
            s.applied ++ (writeJobs (pe :: ps)).map fun j => (j, j.elems base)⟩ ∧
          (∀ path ∈ s.created, path ∈ created) ∧ ∀ ce ∈ pe :: ps, ce.kind = .dsetCreate → ce.path ∈ created := by
      intro seen' hseen hnew hseen'
      obtain ⟨created₁, hone, hmem₁⟩ := serialEntry_kept base staged (s := s)
        (fun h hin => hnew h (by rw [hcreateKey h]; exact (hcreated pe.path).mp hin))
        (fun h => by
          rcases hfirst [] pe ps rfl h with hin | ⟨ce, hce, -⟩
          · exact (hcreated pe.path).mpr hin
          · cases hce) hreads.1
      have hcreated₁ : ∀ path, path ∈ Replicas.created ⟨created₁, s.contents.writeAll base (writeJobs [pe]),
          s.applied ++ (writeJobs [pe]).map fun j => (j, j.elems base)⟩ ↔ (Kind.dsetCreate, path) ∈ seen' :=
        fun path => by rw [hmem₁, hseen', hcreated]
      obtain ⟨created, hrun, hkeeps, hmakes⟩ := ih hcreated₁
        (hfirst.tail hseen fun h => by
          rw [hcreateKey h]
          exact (hseen' pe.path).mpr (.inr ⟨h, rfl⟩)) hreads.2
      refine ⟨created, ?_, fun path hpath => hkeeps path ((hmem₁ path).mpr (.inl hpath)), fun ce hce hk => ?_⟩
      · rw [Parse.fold, hone, Parse.bind_accept, hrun, writeJobs_cons pe ps, List.map_append, List.append_assoc,
          Contents.writeAll, Contents.writeAll, Contents.writeAll, List.foldl_append]
      · rcases List.mem_cons.mp hce with rfl | hce
        · exact hkeeps _ ((hmem₁ _).mpr (.inr ⟨hk, rfl⟩))
        · exact hmakes ce hce hk
    cases hkey : indexKey pe with
    | none =>
      have hno : pe.kind ≠ .dsetCreate := fun h => by
        simp only [indexKey, h, Kind.indexed, if_true] at hkey
        cases hkey
      rw [keepFirst_cons_none hkey]
      exact hkept seen (fun _ h => h) (fun h => absurd h hno) fun path => by simp [hno]
    | some k =>
      obtain ⟨hindexed, rfl⟩ := hkeyOf k hkey
      by_cases hseen : pe.key ∈ seen
      · rw [keepFirst_cons_seen hkey hseen, writeJobs_of_indexed hindexed]
        obtain ⟨created, hrun, hkeeps, hmakes⟩ := ih hcreated (hfirst.tail (fun _ h => h) fun _ => hseen) hreads.2
        refine ⟨created, hrun, hkeeps, fun ce hce hk => ?_⟩
        rcases List.mem_cons.mp hce with rfl | hce
        · exact hkeeps _ ((hcreated _).mpr (by rwa [hcreateKey hk] at hseen))
        · exact hmakes ce hce hk
      · rw [keepFirst_cons_new hkey hseen]
        refine hkept _ (fun _ h => List.mem_append_left _ h) (fun _ => hseen) fun path => ?_
        rw [List.mem_append, List.mem_singleton, PendingEntry.key, Prod.mk.injEq, eq_comm, eq_comm (a := path)]

/-! ## The collective pass -/

/-- What the ranks captured, write by write. -/
def capturedJobs (ranks : List Core) : List WriteJob := ranks.flatMap fun fs => writeJobs fs.pending

theorem writeJobs_captured (ranks : List Core) : writeJobs (captured ranks) = capturedJobs ranks := by
  rw [writeJobs, captured, List.filter_flatMap, List.map_flatMap]
  rfl

theorem capturedJobs_flatten (groups : List (List Core)) :
    capturedJobs groups.flatten = (groups.map capturedJobs).flatten := by
  induction groups with
  | nil => rfl
  | cons group groups ih =>
    rw [List.flatten_cons, List.map_cons, List.flatten_cons, ← ih]
    exact List.flatMap_append

theorem mem_capturedJobs {ranks : List Core} {j : WriteJob} :
    j ∈ capturedJobs ranks ↔ ∃ fs ∈ ranks, ∃ pe ∈ fs.pending, pe.kind = .dsetWrite ∧ pe.job = j := by
  simp only [capturedJobs, writeJobs, List.mem_flatMap, List.mem_map, List.mem_filter, decide_eq_true_eq, and_assoc]

/-- Every rank creates every dataset of the step, and writes nothing. -/
theorem collectivePass (base : Datatype → Nat) (ranks : List Core) (myRank : Nat) :
    ∃ created, serialReplay base true ((winners myRank ranks).map (·.2)) = .accept ⟨created, fun _ _ => none, []⟩ ∧
      ∀ ce ∈ captured ranks, ce.kind = .dsetCreate → ce.path ∈ created := by
  have hwrites : ∀ pe ∈ (captured ranks).filter (·.kind.aggregated), pe.kind ≠ .dsetWrite := by
    intro pe hpe hwrite
    have hagg := (List.mem_filter.mp hpe).2
    rw [hwrite] at hagg
    cases hagg
  have hnone : writeJobs ((captured ranks).filter (·.kind.aggregated)) = [] := by
    rw [writeJobs, List.map_eq_nil_iff, List.filter_eq_nil_iff]
    intro pe hpe
    simpa using hwrites pe hpe
  have hfirst : CreatedFirst [] ((captured ranks).filter (·.kind.aggregated)) := by
    intro front pe back hsplit hwrite
    refine absurd hwrite (hwrites pe ?_)
    rw [hsplit]
    exact List.mem_append_right front List.mem_cons_self
  obtain ⟨created, hrun, -, hmakes⟩ := fold_serialEntry base true (s := .start)
    (fun path => iff_of_false List.not_mem_nil List.not_mem_nil) hfirst (by rw [hnone]; exact List.forall_mem_nil _)
  refine ⟨created, ?_, fun ce hce hkind => hmakes ce (List.mem_filter.mpr ⟨hce, by rw [hkind]; rfl⟩) hkind⟩
  rw [serialReplay, snd_winners, filter_firstRankWins, hrun, hnone]
  rfl

/-! ## The groups -/

/-- The concentrators below a multiple of the group size. -/
theorem concentrators_below {groupSize : Nat} (hpos : 0 < groupSize) (m : Nat) :
    ((List.range (m * groupSize)).filter fun r => decide (concentratorOf groupSize r = r))
      = (List.range m).map (· * groupSize) := by
  induction m with
  | zero =>
    rw [Nat.zero_mul]
    rfl
  | succ m ih =>
    -- of the next group only the first rank
    have hone : ((List.range groupSize).map (m * groupSize + ·)).filter
        (fun r => decide (concentratorOf groupSize r = r)) = [m * groupSize] := by
      cases groupSize with
      | zero => cases hpos
      | succ n =>
        have hmember : ∀ i ∈ List.range n, concentratorOf (n + 1) (m * (n + 1) + (i + 1)) = m * (n + 1) := by
          intro i hi
          have hlt := List.mem_range.mp hi
          rw [concentratorOf, Nat.mul_comm m, Nat.mul_add_div (Nat.succ_pos n), Nat.div_eq_of_lt (by omega),
            Nat.add_zero, Nat.mul_comm]
        have hfirst : decide (concentratorOf (n + 1) (m * (n + 1) + 0) = m * (n + 1) + 0) = true := by
          rw [concentratorOf, Nat.add_zero, Nat.mul_div_cancel _ (Nat.succ_pos n), decide_eq_true_eq]
        rw [List.range_succ_eq_map, List.map_cons, List.filter_cons_of_pos
          (p := fun r => decide (concentratorOf (n + 1) r = r)) hfirst, List.filter_eq_nil_iff.mpr]
        · rw [Nat.add_zero]
        · intro r hr
          obtain ⟨_, hsucc, rfl⟩ := List.mem_map.mp hr
          obtain ⟨i, hi, rfl⟩ := List.mem_map.mp hsucc
          rw [Nat.succ_eq_add_one, hmember i hi, decide_eq_true_eq]
          omega
    rw [Nat.succ_mul, List.range_add, List.filter_append, ih, hone, List.range_succ, List.map_append]
    rfl

theorem flatten_chunks {α : Type} (l : List α) (size m : Nat) :
    ((List.range m).map fun i => (l.drop (i * size)).take size).flatten = l.take (m * size) := by
  induction m with
  | zero =>
    rw [Nat.zero_mul]
    rfl
  | succ m ih =>
    rw [List.range_succ, List.map_append, List.flatten_append, ih, Nat.succ_mul, List.take_add]
    simp only [List.map_cons, List.map_nil, List.flatten_cons, List.flatten_nil, List.append_nil]

/-- The groups are the ranks, in their order. -/
theorem flatten_rankGroups {groupSize : Nat} (hpos : 0 < groupSize) (ranks : List Core) :
    (rankGroups groupSize ranks).flatten = ranks := by
  have hle : ranks.length ≤ ranks.length * groupSize := Nat.le_mul_of_pos_right _ hpos
  obtain ⟨extra, hextra⟩ := Nat.exists_eq_add_of_le hle
  have hall := concentrators_below hpos ranks.length
  rw [hextra, List.range_add, List.filter_append] at hall
  have hchunks := flatten_chunks ranks groupSize ranks.length
  rw [List.take_of_length_le hle] at hchunks
  have hgroups := congrArg (fun l => (l.map fun r => (ranks.drop r).take groupSize).flatten) hall
  simp only [List.map_append, List.flatten_append, List.map_map, Function.comp_def, hchunks] at hgroups
  -- behind the last rank there is nothing to group
  have hbehind : (((((List.range extra).map (ranks.length + ·)).filter fun r =>
      decide (concentratorOf groupSize r = r)).map fun r => (ranks.drop r).take groupSize)).flatten = [] := by
    rw [List.flatten_eq_nil_iff]
    intro l hl
    obtain ⟨r, hr, rfl⟩ := List.mem_map.mp hl
    obtain ⟨i, -, rfl⟩ := List.mem_map.mp (List.mem_filter.mp hr).1
    rw [List.drop_of_length_le (Nat.le_add_right _ i), List.take_nil]
  rw [hbehind, List.append_nil] at hgroups
  exact hgroups

/-! ## What is captured -/

/-- What the ranks of a parallel writer capture: paths and payloads as the capture leaves them, every dataset created
in front of its writes, no element written by two ranks, types and spaces that HDF5 decodes again, and no message too
long for a `size_t`. -/
structure CapturedStep (base : Datatype → Nat) (c : H5Codec Datatype Dataspace) (ranks : List Core) : Prop where
  writes : ∀ j ∈ capturedJobs ranks, j.Captured base
  codec : ∀ j ∈ capturedJobs ranks, c.InvertsAt j.type j.space
  length : ∀ j ∈ capturedJobs ranks, msgLen c j.shipped < 2 ^ 64
  created : ∀ fs ∈ ranks, CreatedFirst [] fs.pending
  apart : ranks.Pairwise fun fs fs' => ∀ j ∈ writeJobs fs.pending, ∀ j' ∈ writeJobs fs'.pending, j.path = j'.path →
    ∀ k ∈ j.space.packingOrder, k ∉ j'.space.packingOrder

/-- These contents, and every capture applied once. -/
def Replicas.Shows (base : Datatype → Nat) (contents : Contents) (jobs : List WriteJob) (s : Replicas) : Prop :=
  s.contents = contents ∧ s.applied.Perm (jobs.map fun j => (j, j.elems base))

/-- The three ways end, and leave the same, in whatever order the writes of different parties fall. -/
def PathsAgree (mpi : Mpi) (big : Bool) (c : H5Codec Datatype Dataspace) (base : Datatype → Nat) (staged : Bool)
    (groupSize : Nat) (ranks : List Core) (myRank : Nat) : Prop :=
  ∃ contents,
    (∃ s, serialReplay base staged (firstRankWins ranks) = .accept s ∧ s.Shows base contents (capturedJobs ranks)) ∧
    (∀ order, Interleaves (localWrites ranks) order → ∃ s, parallelReplay base ranks myRank order = .accept s ∧
      s.Shows base contents (capturedJobs ranks)) ∧
    ∃ groups, concentratedWrites mpi big c groupSize ranks = .accept groups ∧
      ∀ order, Interleaves groups order → ∃ s, parallelReplay base ranks myRank order = .accept s ∧
        s.Shows base contents (capturedJobs ranks)

/-- Every rank behind a concentrator sends it messages whose length is an `int`. -/
def MembersShip (c : H5Codec Datatype Dataspace) (groupSize : Nat) (ranks : List Core) : Prop :=
  ∀ group ∈ rankGroups groupSize ranks, ∀ fs ∈ group.tail, ∀ j ∈ writeJobs fs.pending, msgLen c j.shipped < 2 ^ 31

section agree

variable {mpi : Mpi} {big : Bool} {c : H5Codec Datatype Dataspace} {base : Datatype → Nat} {staged : Bool}
  {groupSize : Nat} {ranks : List Core} (h : CapturedStep base c ranks)

/-! ## In whatever order -/

include h

/-- A rank finds the dataset of every write created. -/
theorem CapturedStep.create_of_job {j : WriteJob} (hj : j ∈ capturedJobs ranks) :
    ∃ ce ∈ captured ranks, ce.kind = .dsetCreate ∧ ce.path = j.path := by
  obtain ⟨fs, hfs, pe, hpe, hkind, rfl⟩ := mem_capturedJobs.mp hj
  obtain ⟨front, back, hsplit⟩ := List.append_of_mem hpe
  rcases h.created fs hfs front pe back hsplit hkind with hnone | ⟨ce, hce, hcreate⟩
  · cases hnone
  · refine ⟨ce, List.mem_flatMap.mpr ⟨fs, hfs, ?_⟩, hcreate⟩
    rw [hsplit]
    exact List.mem_append_left _ hce

/-- What two ranks write covers no element twice. -/
theorem CapturedStep.covered_apart (path : Path) (k : Nat) : ranks.Pairwise fun fs fs' =>
    (writeJobs fs.pending).filter (WriteJob.covers path k) = [] ∨
      (writeJobs fs'.pending).filter (WriteJob.covers path k) = [] := by
  refine h.apart.imp fun {fs fs'} hapart => ?_
  by_contra hboth
  rw [not_or] at hboth
  obtain ⟨j, hj⟩ := List.exists_mem_of_ne_nil _ hboth.1
  obtain ⟨j', hj'⟩ := List.exists_mem_of_ne_nil _ hboth.2
  obtain ⟨hmem, hcovers⟩ := List.mem_filter.mp hj
  obtain ⟨hmem', hcovers'⟩ := List.mem_filter.mp hj'
  simp only [WriteJob.covers, decide_eq_true_eq] at hcovers hcovers'
  exact hapart j hmem j' hmem' (hcovers.1.trans hcovers'.1.symm) k hcovers.2 hcovers'.2

/-- The writes in an order that moves none past another of its element. -/
theorem CapturedStep.replay_order (hreads : ∀ j ∈ capturedJobs ranks, j.rawElems = .accept (j.elems base))
    (myRank : Nat) {order : List WriteJob} (hperm : order.Perm (capturedJobs ranks))
    (hcovers : ∀ path k, order.filter (WriteJob.covers path k)
      = (capturedJobs ranks).filter (WriteJob.covers path k)) :
    ∃ s, parallelReplay base ranks myRank order = .accept s ∧
      s.Shows base (Contents.writeAll base (fun _ _ => none) (capturedJobs ranks)) (capturedJobs ranks) := by
  obtain ⟨created, hpass, hmakes⟩ := collectivePass base ranks myRank
  have hcreated : ∀ j ∈ order, j.path ∈ created := by
    intro j hj
    obtain ⟨ce, hce, hkind, hpath⟩ := h.create_of_job (hperm.mem_iff.mp hj)
    rw [← hpath]
    exact hmakes ce hce hkind
  have hloop := fold_writeReplica base (s := ⟨created, fun _ _ => none, []⟩) hcreated
    fun j hj => hreads j (hperm.mem_iff.mp hj)
  rw [parallelReplay, hpass, Parse.bind_accept, hloop, List.nil_append]
  exact ⟨_, rfl, Contents.writeAll_eq base _ hcovers, hperm.map _⟩

/-- The serial loop, which rebuilds what it hands over. -/
theorem CapturedStep.serial (hreads : ∀ j ∈ capturedJobs ranks, j.rebuiltElems base staged = .accept (j.elems base)) :
    ∃ s, serialReplay base staged (firstRankWins ranks) = .accept s ∧
      s.Shows base (Contents.writeAll base (fun _ _ => none) (capturedJobs ranks)) (capturedJobs ranks) := by
  rw [← writeJobs_captured] at hreads ⊢
  obtain ⟨created, hrun, -, -⟩ := fold_serialEntry base staged (s := .start)
    (fun path => iff_of_false List.not_mem_nil List.not_mem_nil) (createdFirst_captured h.created) hreads
  exact ⟨_, hrun, rfl, .refl _⟩

/-- Each rank's own writes, however they fall. -/
theorem CapturedStep.local (hreads : ∀ j ∈ capturedJobs ranks, j.rawElems = .accept (j.elems base)) (myRank : Nat)
    {order : List WriteJob} (horder : Interleaves (localWrites ranks) order) :
    ∃ s, parallelReplay base ranks myRank order = .accept s ∧
      s.Shows base (Contents.writeAll base (fun _ _ => none) (capturedJobs ranks)) (capturedJobs ranks) := by
  have hjobs : (localWrites ranks).flatten = capturedJobs ranks := rfl
  refine h.replay_order hreads myRank (hjobs ▸ horder.perm) fun path k => ?_
  rw [← hjobs]
  exact horder.filter_eq (List.pairwise_map.mpr (h.covered_apart path k))

/-- The groups' writes, path by path, however they fall. -/
theorem CapturedStep.concentrated (hpos : 0 < groupSize)
    (hreads : ∀ j ∈ capturedJobs ranks, j.rawElems = .accept (j.elems base)) (myRank : Nat) {order : List WriteJob}
    (horder : Interleaves ((rankGroups groupSize ranks).map fun group => grouped (·.path) (capturedJobs group)) order) :
    ∃ s, parallelReplay base ranks myRank order = .accept s ∧
      s.Shows base (Contents.writeAll base (fun _ _ => none) (capturedJobs ranks)) (capturedJobs ranks) := by
  have hranks := flatten_rankGroups hpos ranks
  have hjobs := capturedJobs_flatten (rankGroups groupSize ranks)
  rw [hranks] at hjobs
  -- the writes of one element are of one path, and grouping leaves these in their order
  have hgrouped : ∀ path k group, (grouped (·.path) (capturedJobs group)).filter (WriteJob.covers path k)
      = (capturedJobs group).filter (WriteJob.covers path k) := fun path k group => by
    refine filter_grouped (k := path) (fun j hj => ?_) _
    simp only [WriteJob.covers, decide_eq_true_eq] at hj
    exact hj.1
  have hall : ∀ groups : List (List Core),
      (groups.map fun group => grouped (·.path) (capturedJobs group)).flatten.Perm (groups.map capturedJobs).flatten := by
    intro groups
    rw [← List.flatMap_def, ← List.flatMap_def]
    exact List.Perm.flatMap_left groups fun group _ => perm_grouped _ _
  refine h.replay_order hreads myRank (horder.perm.trans (hjobs ▸ hall _)) fun path k => ?_
  have happart : (rankGroups groupSize ranks).Pairwise fun group group' =>
      (capturedJobs group).filter (WriteJob.covers path k) = [] ∨
        (capturedJobs group').filter (WriteJob.covers path k) = [] := by
    have hpairs := (List.pairwise_flatten.mp (hranks.symm ▸ h.covered_apart path k)).2
    refine hpairs.imp fun {group group'} hpair => ?_
    by_cases hnone : ∀ fs ∈ group, (writeJobs fs.pending).filter (WriteJob.covers path k) = []
    · left
      rw [capturedJobs, List.filter_flatMap, List.flatMap_eq_nil_iff]
      exact hnone
    · right
      rw [capturedJobs, List.filter_flatMap, List.flatMap_eq_nil_iff]
      intro fs' hfs'
      by_contra hsome'
      exact hnone fun fs hfs => (hpair fs hfs fs' hfs').resolve_right hsome'
  rw [horder.filter_eq (List.pairwise_map.mpr (happart.imp fun hone => by rwa [hgrouped, hgrouped])), hjobs,
    List.filter_flatten, List.filter_flatten, List.map_map, List.map_map]
  exact congrArg List.flatten (List.map_congr_left fun group _ => hgrouped path k group)

/-- The jobs of the groups, where every message arrives as it was. -/
theorem CapturedStep.gathered (hpos : 0 < groupSize) (hships : MembersShip c groupSize ranks) :
    concentratedWrites mpi big c groupSize ranks
      = .accept ((rankGroups groupSize ranks).map fun group => grouped (·.path) (capturedJobs group)) := by
  have hgroup : ∀ group ∈ rankGroups groupSize ranks, groupJobs mpi big c group = .accept (capturedJobs group) := by
    intro group hgroup
    cases group with
    | nil => rfl
    | cons own members =>
      have hmembers := Parse.mapAll_of_accept (f := shipJob mpi big c) (g := id)
        (l := members.flatMap fun fs => writeJobs fs.pending) fun j hj => by
          obtain ⟨fs, hfs, hjob⟩ := List.mem_flatMap.mp hj
          have hmem : j ∈ capturedJobs ranks := by
            rw [← flatten_rankGroups hpos ranks]
            exact List.mem_flatMap.mpr ⟨fs, List.mem_flatten.mpr ⟨_, hgroup, List.mem_cons_of_mem own hfs⟩, hjob⟩
          exact shipJob_of_short (h.codec j hmem) (h.writes j hmem) (hships _ hgroup fs hfs j hjob)
      rw [groupJobs, hmembers, List.map_id, Parse.map_accept]
      rfl
  rw [concentratedWrites, Parse.mapAll_of_accept hgroup, Parse.map_accept, List.map_map]
  rfl

/-! ## What an agreement takes -/

omit h in
/-- The writes behind a collective pass: their loop starts with nothing applied. -/
theorem fold_of_parallelReplay {myRank : Nat} {order : List WriteJob} {s : Replicas}
    (hrun : parallelReplay base ranks myRank order = .accept s) :
    ∃ s₀ : Replicas, s₀.applied = [] ∧ Parse.fold writeReplica s₀ order = .accept s := by
  obtain ⟨created, hpass, -⟩ := collectivePass base ranks myRank
  rw [parallelReplay, hpass, Parse.bind_accept] at hrun
  exact ⟨_, rfl, hrun⟩

omit h in
/-- A write the serial loop got through. -/
theorem rebuilt_of_serial {s : Replicas} (hserial : serialReplay base staged (firstRankWins ranks) = .accept s)
    {j : WriteJob} (hj : j ∈ capturedJobs ranks) : ∃ es, j.rebuiltElems base staged = .accept es := by
  rw [← writeJobs_captured, writeJobs, List.mem_map] at hj
  obtain ⟨pe, hpe, rfl⟩ := hj
  -- a write has no kind and path to be dropped for
  have hnokey : ∀ pe : PendingEntry, decide (pe.kind = .dsetWrite) = true → indexKey pe = none := by
    intro pe hkind
    rw [decide_eq_true_eq] at hkind
    rw [indexKey, hkind]
    rfl
  rw [← filter_keepFirst_none hnokey []] at hpe
  obtain ⟨hmem, hkind⟩ := List.mem_filter.mp hpe
  obtain ⟨s₁, s₂, hone⟩ := Parse.fold_eq_accept hserial hmem
  rw [decide_eq_true_eq] at hkind
  simp only [serialEntry, hkind, Replicas.write] at hone
  split at hone
  · obtain ⟨es, hes, -⟩ := Parse.bind_eq_accept hone
    exact ⟨es, hes⟩
  · cases hone

theorem CapturedStep.portable {s s' : Replicas} (hserial : serialReplay base staged (firstRankWins ranks) = .accept s)
    {myRank : Nat} {order : List WriteJob} (hrun : parallelReplay base ranks myRank order = .accept s')
    (honce : s'.applied.Perm ((capturedJobs ranks).map fun j => (j, j.elems base))) {j : WriteJob}
    (hj : j ∈ capturedJobs ranks) : j.Portable base staged := by
  obtain ⟨s₀, hnone, hloop⟩ := fold_of_parallelReplay hrun
  have happlied : (j, j.elems base) ∈ s'.applied := honce.mem_iff.mpr (List.mem_map_of_mem hj)
  have hraw : j.rawElems = .accept (j.elems base) := by
    rcases applied_of_fold hloop happlied with hin | ⟨-, hread⟩
    · rw [hnone] at hin
      cases hin
    · exact hread
  obtain ⟨es, hrebuilt⟩ := rebuilt_of_serial hserial hj
  exact (h.writes j hj).portable_of_rawElems hraw fun hkind hn => (h.writes j hj).staged_of_rebuiltElems hrebuilt hkind hn

/-- A job that lost the end of its payload cannot be written. -/
theorem CapturedStep.membersShip (hpos : 0 < groupSize)
    (hportable : ∀ j ∈ capturedJobs ranks, j.Portable base staged) {groups : List (List WriteJob)}
    (hgathered : concentratedWrites mpi big c groupSize ranks = .accept groups) {myRank : Nat} {s : Replicas}
    (hrun : parallelReplay base ranks myRank groups.flatten = .accept s) : MembersShip c groupSize ranks := by
  intro group hgroup fs hfs j hjob
  cases group with
  | nil => cases hfs
  | cons own members =>
    by_contra hlong
    have hj : j ∈ capturedJobs ranks := by
      rw [← flatten_rankGroups hpos ranks]
      exact List.mem_flatMap.mpr ⟨fs, List.mem_flatten.mpr ⟨_, hgroup, List.mem_cons_of_mem own hfs⟩, hjob⟩
    -- the job its concentrator received, and applied
    obtain ⟨gathered, hall, hgroups⟩ := Parse.bind_eq_accept hgathered
    cases hgroups
    obtain ⟨jobs, hjobs, hgather⟩ := (Parse.mapAll_eq_accept hall).2.1 _ hgroup
    obtain ⟨shipped, hship, hjobs'⟩ := Parse.bind_eq_accept hgather
    cases hjobs'
    obtain ⟨j', hj', harrived⟩ := (Parse.mapAll_eq_accept hship).2.1 j (List.mem_flatMap.mpr ⟨fs, hfs, hjob⟩)
    have hin : j' ∈ (gathered.map (grouped (·.path))).flatten := List.mem_flatten.mpr
      ⟨_, List.mem_map_of_mem hjobs, (perm_grouped _ _).mem_iff.mpr (List.mem_append_right _ hj')⟩
    obtain ⟨s₀, -, hloop⟩ := fold_of_parallelReplay hrun
    obtain ⟨s₁, s₂, hone⟩ := Parse.fold_eq_accept hloop hin
    unfold writeReplica Replicas.write at hone
    split at hone
    · obtain ⟨es, hes, -⟩ := Parse.bind_eq_accept hone
      have hcovered := WriteJob.length_of_rawElems hes
      obtain ⟨htype, hspace, hshorter⟩ := shipJob_of_long (h.codec j hj) (h.writes j hj) hlong (h.length j hj) harrived
      have hwhole := (h.writes j hj).length_payload (hportable j hj)
      rw [htype, hspace] at hcovered
      omega
    · cases hone

end agree

/-- A variable-length C string. -/
def cString : Datatype := ⟨[3, 0, 25, 1, 0, 0, 8, 0, 0, 0, 19, 0, 0, 0, 1, 0, 0, 0], 8, .string, false⟩

/-- HDF5's encodings of two datatypes and of the scalar dataspace. -/
def scalarCodec : H5Codec Datatype Dataspace where
  encodeType := Datatype.enc
  decodeType b := if b = nativeUchar.enc then some nativeUchar else if b = cString.enc then some cString else none
  encodeSpace _ := scalarUchar.encodeSpace ()
  decodeSpace b := (scalarUchar.decodeSpace b).map fun _ => ⟨.scalar, .all⟩

theorem narrow_of_all {path : Path} (h : (path.all fun ch => decide (0 < ch.toNat ∧ ch.toNat < 256)) = true) :
    ∀ ch ∈ path, 0 < ch.toNat ∧ ch.toNat < 256 := fun ch hch => of_decide_eq_true (List.all_eq_true.mp h ch hch)

-- a scalar dataset, and a write to it
def scalarCreate (path : Path) (t : Datatype) : PendingEntry :=
  ⟨.dsetCreate, path, t, ⟨.scalar, .all⟩, some [1], .bytes [], none⟩

def scalarWrite (path : Path) (t : Datatype) (payload : Bytes) : PendingEntry :=
  ⟨.dsetWrite, path, t, ⟨.scalar, .all⟩, none, .bytes payload, none⟩

/-- One write behind the creates. -/
theorem createdFirst_oneWrite {creates : List PendingEntry} {pe : PendingEntry}
    (hno : ∀ ce ∈ creates, ce.kind ≠ .dsetWrite) (hmade : ∃ ce ∈ creates, ce.kind = .dsetCreate ∧ ce.path = pe.path) :
    CreatedFirst [] (creates ++ [pe]) := by
  intro front pe' back hsplit hwrite
  rcases List.append_eq_append_iff.mp hsplit with ⟨mid, rfl, hback⟩ | ⟨mid, rfl, hmid⟩
  · cases mid with
    | nil =>
      obtain ⟨rfl, -⟩ := List.cons.inj hback
      obtain ⟨ce, hce, hcreate⟩ := hmade
      exact .inr ⟨ce, List.mem_append_left [] hce, hcreate⟩
    | cons pe'' mid =>
      have := congrArg List.length hback
      simp at this
  · cases mid with
    | nil =>
      obtain ⟨rfl, -⟩ := List.cons.inj hmid
      obtain ⟨ce, hce, hcreate⟩ := hmade
      rw [List.append_nil] at hce
      exact .inr ⟨ce, hce, hcreate⟩
    | cons pe'' mid =>
      obtain ⟨rfl, -⟩ := List.cons.inj hmid
      exact absurd hwrite (hno pe' (List.mem_append_right front List.mem_cons_self))

-- both ranks create `/a` and `/b`, and each writes one of them
def twoCreates : List PendingEntry := [scalarCreate ['/', 'a'] nativeUchar, scalarCreate ['/', 'b'] nativeUchar]

def twoWriters : List Core :=
  [rankOf [] (twoCreates ++ [scalarWrite ['/', 'a'] nativeUchar [5]]),
    rankOf [] (twoCreates ++ [scalarWrite ['/', 'b'] nativeUchar [6]])]

theorem twoWriters_captured : CapturedStep (fun _ => 1) scalarCodec twoWriters where
  writes := by
    have hjobs : ∀ j ∈ capturedJobs twoWriters, j = ⟨['/', 'a'], nativeUchar, ⟨.scalar, .all⟩, [5]⟩ ∨
        j = ⟨['/', 'b'], nativeUchar, ⟨.scalar, .all⟩, [6]⟩ := by decide
    intro j hj
    rcases hjobs j hj with rfl | rfl
    · exact ⟨narrow_of_all rfl, fun _ => rfl, fun hkind => absurd rfl hkind⟩
    · exact ⟨narrow_of_all rfl, fun _ => rfl, fun hkind => absurd rfl hkind⟩
  codec := by
    have hjobs : ∀ j ∈ capturedJobs twoWriters, j.type = nativeUchar ∧ j.space = ⟨.scalar, .all⟩ := by decide
    intro j hj
    rw [(hjobs j hj).1, (hjobs j hj).2]
    exact ⟨rfl, fun _ => rfl⟩
  length := by decide
  created := by
    intro fs hfs
    rw [twoWriters, List.mem_cons, List.mem_singleton] at hfs
    rcases hfs with rfl | rfl
    · exact createdFirst_oneWrite (by decide) (by decide)
    · exact createdFirst_oneWrite (by decide) (by decide)
  apart := by
    have hpaths : ∀ j ∈ writeJobs (twoCreates ++ [scalarWrite ['/', 'a'] nativeUchar [5]]),
        ∀ j' ∈ writeJobs (twoCreates ++ [scalarWrite ['/', 'b'] nativeUchar [6]]), j.path ≠ j'.path := by decide
    exact List.pairwise_pair.mpr fun j hj j' hj' hpath => absurd hpath (hpaths j hj j' hj')

-- one rank, which writes the string `h`
def stringWriter : List Core :=
  [rankOf [] ([scalarCreate ['/', 's'] cString] ++ [scalarWrite ['/', 's'] cString [2, 0, 0, 0, 0, 0, 0, 0, 104]])]

end VolStream
