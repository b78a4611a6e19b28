import VolStream.Writer.EndStep
import VolStream.Writer.Reached

/-!
# Calls through links

A link of `/step/<n>` may lead into an earlier step, and a call that makes something at or below the
link's path then changes that step, not `/step/<n>`. This module says which calls an entry's replay
makes, and when none of them goes through such a link.
-/

namespace VolStream

/-! ## The calls of one entry -/

/-- A call the replay of `e` at step `n` makes. -/
inductive FileOp.Of (n : Nat) (idx : PathIndex) (payload : Payload) (e : Entry) : FileOp → Prop where
  | datasetCreate (t : Datatype) (h : e.kind = .dsetCreate) :
      Of n idx payload e (.datasetCreate e.path t e.space e.dcpl)
  | datasetWrite (t : Datatype) (h : e.kind = .dsetWrite) :
      Of n idx payload e (.datasetWrite e.path t e.space payload)
  | aliasCreate (parent : Path) (r : Nat) (h : e.kind = .attr) (hparent : attrParent e.path = some parent) :
      Of n idx payload e (.aliasCreate parent r)
  | groupCreate (parent : Path) (h : e.kind = .attr) (hparent : attrParent e.path = some parent) :
      Of n idx payload e (.groupCreate parent)
  | attrCreate (t : Datatype) (h : e.kind = .attr) : Of n idx payload e (.attrCreate e.path t e.space e.dcpl)
  | attrWrite (h : e.kind = .attr) : Of n idx payload e (.attrWrite e.path payload)
  | linkCreate (hard : Bool) (target : Path) (h : e.kind = .link) (hpayload : payload = .link hard target) :
      Of n idx payload e (.linkCreate e.path hard (pathIndexResolve idx target n) target)

-- the calls made on group `n` between two states, each of which meets `P`
def Replay.Logged (n : Nat) (P : FileOp → Prop) (st st' : Replay) : Prop :=
  ∃ ops, (∀ op ∈ ops, P op) ∧ st'.core.file = st.core.file.appendAll n ops ∧ st'.core.pathIndex = st.core.pathIndex

section Logged

variable {n : Nat} {P : FileOp → Prop}

theorem Replay.Logged.refl (n : Nat) (P : FileOp → Prop) (st : Replay) : st.Logged n P st :=
  ⟨[], List.forall_mem_nil _, rfl, rfl⟩

theorem Replay.Logged.trans {a b c : Replay} (hab : a.Logged n P b) (hbc : b.Logged n P c) : a.Logged n P c := by
  obtain ⟨ops, hops, hfile, hidx⟩ := hab
  obtain ⟨ops', hops', hfile', hidx'⟩ := hbc
  refine ⟨ops ++ ops', fun op hop => ?_, ?_, hidx'.trans hidx⟩
  · rcases List.mem_append.mp hop with hop | hop
    · exact hops op hop
    · exact hops' op hop
  · rw [hfile', hfile, StepFile.appendAll_append]

theorem Replay.logged_logOp (st : Replay) {op : FileOp} (h : P op) : st.Logged n P (st.logOp n op) :=
  ⟨[op], fun _ hop => (List.mem_singleton.mp hop) ▸ h, rfl, rfl⟩

theorem Replay.logged_wire (st : Replay) (i : Nat) (owned : Bool) : st.Logged n P (st.wire i owned) :=
  ⟨[], List.forall_mem_nil _, by rw [Replay.wire_core]; rfl, by rw [Replay.wire_core]⟩

end Logged

theorem logged_createAttr (env : ReplayEnv) (n i : Nat) (e : Entry) (t : Datatype) {parent : Path}
    {P : FileOp → Prop} (hattr : P (.attrCreate e.path t e.space e.dcpl)) (hgroup : P (.groupCreate parent))
    (halias : ∀ r, P (.aliasCreate parent r)) (st : Replay) :
    st.Logged n P (createAttr env n i e t parent st).state := by
  have honGroup : ∀ st' : Replay, st'.Logged n P
      (if env.fails i .ensureAttrGroup then Outcome.fail st'
        else if env.fails i .attrCreate then .fail (st'.logOp n (.groupCreate parent))
        else .ok ((st'.logOp n (.groupCreate parent)).logOp n (.attrCreate e.path t e.space e.dcpl))).state := by
    intro st'
    split
    · exact .refl _ _ st'
    · split
      · exact st'.logged_logOp hgroup
      · exact (st'.logged_logOp hgroup).trans (Replay.logged_logOp _ hattr)
  unfold createAttr
  simp only
  split
  · exact st.logged_logOp hattr
  · split
    · exact honGroup st
    · split
      · exact honGroup st
      · split
        · exact (st.logged_logOp (halias _)).trans (honGroup _)
        · exact (st.logged_logOp (halias _)).trans (Replay.logged_logOp _ hattr)

theorem logged_applyEntry (env : ReplayEnv) (args : ReplayArgs) (ie : Nat × Entry) (t : Datatype) (st : Replay) :
    st.Logged args.manifest.physicalStep
      (FileOp.Of args.manifest.physicalStep st.core.pathIndex (args.payload ie.1) ie.2)
      (applyEntry env args ie.1 ie.2 t st).state := by
  unfold applyEntry
  simp only
  split
  · rename_i hk
    split
    · exact .refl _ _ st
    · exact (st.logged_logOp (.datasetCreate t hk)).trans (Replay.logged_wire _ _ _)
  · rename_i hk
    split
    · exact .refl _ _ st
    · split
      · exact .refl _ _ st
      · split
        · exact .refl _ _ st
        · exact st.logged_logOp (.datasetWrite t hk)
  · rename_i hk
    split
    · exact .refl _ _ st
    · rename_i parent hparent
      have hcreate := logged_createAttr env args.manifest.physicalStep ie.1 ie.2 t
        (P := FileOp.Of args.manifest.physicalStep st.core.pathIndex (args.payload ie.1) ie.2)
        (.attrCreate t hk) (.groupCreate parent hk hparent) (fun r => .aliasCreate parent r hk hparent) st
      cases hc : createAttr env args.manifest.physicalStep ie.1 ie.2 t parent st with
      | fail st' =>
        rw [hc] at hcreate
        exact hcreate
      | ok st' =>
        rw [hc] at hcreate
        rw [Outcome.bind_ok]
        split
        · exact hcreate.trans (Replay.logged_wire _ _ _)
        · split
          · exact hcreate
          · split
            · exact hcreate
            · exact hcreate.trans ((Replay.logged_logOp _ (.attrWrite hk)).trans (Replay.logged_wire _ _ _))
  · rename_i hk
    unfold replayLink
    split
    · exact .refl _ _ st
    · rename_i hard target hpayload
      split
      · exact .refl _ _ st
      · have hlink := st.logged_logOp (n := args.manifest.physicalStep)
          (P := FileOp.Of args.manifest.physicalStep st.core.pathIndex (args.payload ie.1) ie.2)
          (.linkCreate hard target hk hpayload)
        simp only
        split
        · exact hlink
        · exact hlink
  · exact .refl _ _ st

/-- The calls an entry's replay makes, whether or not it succeeds. -/
theorem replayEntry_ops (env : ReplayEnv) (args : ReplayArgs) (ie : Nat × Entry) (st : Replay) :
    ∃ ops, (∀ op ∈ ops, FileOp.Of args.manifest.physicalStep
        (indexEntry st.core.pathIndex args.manifest.physicalStep ie.2.kind ie.2.path) (args.payload ie.1) ie.2 op)
      ∧ (replayEntry env args ie st).state.core.file
        = st.core.file.appendAll args.manifest.physicalStep ops := by
  unfold replayEntry
  have hr := resolved_core st args.manifest.physicalStep ie.2
  have hlooked : (st.looked ie.2).core.file = st.core.file := by rw [Replay.looked_core]
  have hresolved : (st.resolved args.manifest.physicalStep ie.2).core.file = st.core.file := by rw [hr]
  rcases resolveEntry_cases env args ie.1 ie.2 st with
    ⟨h, -⟩ | ⟨h, -⟩ | ⟨h, -⟩ | ⟨h, -⟩ | h <;> rw [h]
  · exact ⟨[], List.forall_mem_nil _, rfl⟩
  · exact ⟨[], List.forall_mem_nil _, hlooked⟩
  · exact ⟨[], List.forall_mem_nil _, hlooked⟩
  · exact ⟨[], List.forall_mem_nil _, hresolved⟩
  · rw [Outcome.bind_ok]
    split
    · exact ⟨[], List.forall_mem_nil _, hresolved⟩
    · rename_i t _
      obtain ⟨ops, hops, hfile, -⟩ := logged_applyEntry env args ie t (st.resolved args.manifest.physicalStep ie.2)
      rw [hr] at hops hfile
      exact ⟨ops, hops, hfile⟩

/-! ## Going through a link -/

-- `q` lies below `p`
def below (p q : Path) : Bool := (p ++ ['/']).isPrefixOf q

-- `q` is `p` or lies below it
def atOrBelow (p q : Path) : Bool := decide (q = p) || below p q

theorem not_below_self (p : Path) : below p p = false := by
  unfold below
  cases h : (p ++ ['/']).isPrefixOf p with
  | false => rfl
  | true =>
    have hle := (List.isPrefixOf_iff_prefix.mp h).length_le
    rw [List.length_append, List.length_singleton] at hle
    omega

/-- Replaying the entry makes something at or below `p`. -/
def entersAt (p : Path) (key : Kind × Path) : Bool :=
  match key.1 with
  | .dsetCreate => below p key.2
  | .link => below p key.2
  | .attr => (attrParent key.2).any (atOrBelow p)
  | _ => false

/-- The call makes something at or below `p`: were `p` a link, it would go through it. -/
def FileOp.entersAt (p : Path) : FileOp → Bool
  | .datasetCreate path .. => below p path
  | .aliasCreate path _ => below p path
  | .groupCreate path => below p path
  | .attrCreate path .. => (attrParent path).any (atOrBelow p)
  | .linkCreate path .. => below p path
  | _ => false

/-- The path of a link that leads out of `/step/<k>`. -/
def FileOp.exit (k : Nat) : FileOp → Option Path
  | .linkCreate path _ step _ => if step = some k then none else some path
  | _ => none

def stepRoot (n : Nat) : Path := ['/', 's', 't', 'e', 'p', '/'] ++ stepName n

/-- The path of a link that leads into `/step/<n>`: to the target's copy there, or to a target the
stream does not carry and that lies there. -/
def FileOp.leadsInto (n : Nat) : FileOp → Option Path
  | .linkCreate path _ (some r) _ => if r = n then some path else none
  | .linkCreate path _ none target => if atOrBelow (stepRoot n) target then some path else none
  | _ => none

/-- No call in another group went through a link into `/step/<n>`. -/
def StepFile.Untouched (file : StepFile) (n : Nat) : Prop :=
  ∀ k, k ≠ n → (file.ops k).Pairwise fun op op' => ∀ p, op.leadsInto n = some p → op'.entersAt p = false

/-- No call in a group went through a link out of it. -/
def StepFile.Inward (file : StepFile) (k : Nat) : Prop :=
  (file.ops k).Pairwise fun op op' => ∀ p, op.exit k = some p → op'.entersAt p = false

theorem StepFile.untouched_of_inward {file : StepFile} (h : ∀ k, file.Inward k) (n : Nat) : file.Untouched n := by
  intro k hk
  refine (h k).imp (fun {op op'} hop p hp => hop p ?_)
  cases op with
  | linkCreate path hard step target =>
    cases step with
    | none =>
      simp only [FileOp.leadsInto] at hp
      split at hp
      · exact hp
      · cases hp
    | some r =>
      simp only [FileOp.leadsInto] at hp
      split at hp
      · rename_i hr
        simp only [FileOp.exit]
        rw [if_neg (fun hs => hk (by rw [← hr]; exact (Option.some.inj hs).symm))]
        exact hp
      · cases hp
  | _ => cases hp

/-- A call that goes through a link belongs to an entry that does. -/
theorem FileOp.Of.entersAt {n : Nat} {idx : PathIndex} {payload : Payload} {e : Entry} {op : FileOp}
    (h : op.Of n idx payload e) {p : Path} (hp : op.entersAt p = true) : VolStream.entersAt p e.key = true := by
  have hattr : ∀ parent, e.kind = .attr → attrParent e.path = some parent → below p parent = true →
      VolStream.entersAt p e.key = true := by
    intro parent hk hparent hbelow
    unfold VolStream.entersAt Entry.key
    simp only [hk, hparent, Option.any_some, atOrBelow, hbelow, Bool.or_true]
  cases h with
  | datasetCreate t hk =>
    unfold VolStream.entersAt Entry.key
    simp only [hk]
    exact hp
  | datasetWrite t hk => cases hp
  | aliasCreate parent r hk hparent => exact hattr parent hk hparent hp
  | groupCreate parent hk hparent => exact hattr parent hk hparent hp
  | attrCreate t hk =>
    unfold VolStream.entersAt Entry.key
    simp only [hk]
    exact hp
  | attrWrite hk => cases hp
  | linkCreate hard target hk hpayload =>
    unfold VolStream.entersAt Entry.key
    simp only [hk]
    exact hp

/-! ## Replays that stay inside -/

-- whether the step itself creates the dataset
def creates (keys : List (Kind × Path)) (path : Path) : Bool := keys.any fun key => decide (key = (.dsetCreate, path))

/-- The path of a link entry whose target the step does not create. -/
def exitOf (keys : List (Kind × Path)) (key : Kind × Path) (payload : Payload) : Option Path :=
  match key.1, payload with
  | .link, .link _ target => if creates keys target then none else some key.2
  | _, _ => none

def ReplayArgs.exit (args : ReplayArgs) (ie : Nat × Entry) : Option Path :=
  exitOf (args.manifest.entries.map Entry.key) ie.2.key (args.payload ie.1)

theorem exitOf_eq_some {keys : List (Kind × Path)} {key : Kind × Path} {payload : Payload} {p : Path}
    (h : exitOf keys key payload = some p) : key.1 = .link ∧ p = key.2 := by
  obtain ⟨kind, path⟩ := key
  cases kind with
  | link =>
    cases payload with
    | bytes b => cases h
    | link hard target =>
      simp only [exitOf] at h
      split at h
      · cases h
      · exact ⟨rfl, (Option.some.inj h).symm⟩
  | _ => cases h

-- every dataset the step creates resolves to the step
def Created (args : ReplayArgs) (idx : PathIndex) : Prop :=
  ∀ path, creates (args.manifest.entries.map Entry.key) path = true →
    pathIndexResolve idx path args.manifest.physicalStep = some args.manifest.physicalStep

theorem pathIndexResolve_appended {idx idx' : PathIndex} {n : Nat} (h : Appended n idx idx') {path : Path}
    (hres : pathIndexResolve idx path n = some n) : pathIndexResolve idx' path n = some n := by
  obtain ⟨c, hc⟩ := h path
  unfold pathIndexResolve at hres ⊢
  rw [hc, List.reverse_append, List.reverse_replicate, List.find?_append]
  cases c with
  | zero => exact hres
  | succ c =>
    rw [List.replicate_succ, List.find?_cons_of_pos (by simp)]
    rfl

theorem Created.appended {args : ReplayArgs} {idx idx' : PathIndex} (h : Created args idx)
    (happ : Appended args.manifest.physicalStep idx idx') : Created args idx' :=
  fun path hpath => pathIndexResolve_appended happ (h path hpath)

theorem FileOp.Of.exit {args : ReplayArgs} {ie : Nat × Entry} {idx : PathIndex} {op : FileOp} {p : Path}
    (h : op.Of args.manifest.physicalStep idx (args.payload ie.1) ie.2)
    (hcreated : ie.2.kind = .link → Created args idx) (hp : op.exit args.manifest.physicalStep = some p) :
    args.exit ie = some p := by
  cases h with
  | linkCreate hard target hk hpayload =>
    unfold ReplayArgs.exit exitOf
    simp only [show ie.2.key.1 = .link from hk, hpayload]
    simp only [FileOp.exit] at hp
    split at hp
    · cases hp
    · rename_i hout
      rw [if_neg (fun hc => hout (hcreated hk target hc))]
      exact hp
  | _ => cases hp

theorem StepFile.Inward.appendAll {file : StepFile} {n : Nat} (h : file.Inward n) {ops : List FileOp}
    (hops : ops.Pairwise fun op op' => ∀ p, op.exit n = some p → op'.entersAt p = false)
    (houter : ∀ op ∈ file.ops n, ∀ op' ∈ ops, ∀ p, op.exit n = some p → op'.entersAt p = false) :
    (file.appendAll n ops).Inward n := by
  unfold StepFile.Inward
  rw [StepFile.ops_appendAll, if_pos rfl]
  exact List.pairwise_append.mpr ⟨h, hops, houter⟩

/-- The loop rule: `done` holds the links out of the group so far, and no entry to come goes through
one of them. -/
theorem inward_loop (env : ReplayEnv) (args : ReplayArgs) {l : List (Nat × Entry)} {st : Replay} (done : List Path)
    (hfile : st.core.file.Inward args.manifest.physicalStep)
    (hdone : ∀ op ∈ st.core.file.ops args.manifest.physicalStep, ∀ p,
      op.exit args.manifest.physicalStep = some p → p ∈ done)
    (hpair : l.Pairwise fun a b => ∀ p, args.exit a = some p → entersAt p b.2.key = false)
    (houter : ∀ p ∈ done, ∀ ie ∈ l, entersAt p ie.2.key = false)
    (hcreated : (∃ ie ∈ l, ie.2.kind = .link) → Created args st.core.pathIndex) :
    (Outcome.runAll (replayEntry env args) l st).state.core.file.Inward args.manifest.physicalStep
      ∧ ∀ op ∈ (Outcome.runAll (replayEntry env args) l st).state.core.file.ops args.manifest.physicalStep, ∀ p,
        op.exit args.manifest.physicalStep = some p → p ∈ done ∨ ∃ ie ∈ l, args.exit ie = some p := by
  induction l generalizing st done with
  | nil => exact ⟨hfile, fun op hop p hp => .inl (hdone op hop p hp)⟩
  | cons ie l ih =>
    rw [List.pairwise_cons] at hpair
    obtain ⟨ops, hops, hlogged⟩ := replayEntry_ops env args ie st
    have happ := appended_indexEntry st.core.pathIndex args.manifest.physicalStep ie.2.kind ie.2.path
    have hexit : ∀ op ∈ ops, ∀ p, op.exit args.manifest.physicalStep = some p → args.exit ie = some p := by
      intro op hop p hp
      refine (hops op hop).exit (fun hk => ?_) hp
      exact (hcreated ⟨ie, List.mem_cons_self, hk⟩).appended happ
    have henters : ∀ op ∈ ops, ∀ p, op.entersAt p = true → entersAt p ie.2.key = true :=
      fun op hop p hp => (hops op hop).entersAt hp
    have hself : ∀ p, args.exit ie = some p → entersAt p ie.2.key = false := by
      intro p hp
      obtain ⟨hk, rfl⟩ := exitOf_eq_some hp
      unfold entersAt
      simp only [hk]
      exact not_below_self _
    have hnot : ∀ op ∈ ops, ∀ p, entersAt p ie.2.key = false → op.entersAt p = false := by
      intro op hop p hp
      cases ht : op.entersAt p with
      | false => rfl
      | true =>
        rw [henters op hop p ht] at hp
        cases hp
    have hfile' : (replayEntry env args ie st).state.core.file.Inward args.manifest.physicalStep := by
      rw [hlogged]
      refine hfile.appendAll ?_ (fun op hop op' hop' p hp => ?_)
      · refine List.pairwise_of_forall_mem_list (fun op hop op' hop' p hp => ?_)
        exact hnot op' hop' p (hself p (hexit op hop p hp))
      · exact hnot op' hop' p (houter p (hdone op hop p hp) ie List.mem_cons_self)
    -- the links out of the group so far, with this one
    have hdone' : ∀ op ∈ (replayEntry env args ie st).state.core.file.ops args.manifest.physicalStep, ∀ p,
        op.exit args.manifest.physicalStep = some p → p ∈ done ++ (args.exit ie).toList := by
      intro op hop p hp
      rw [hlogged, StepFile.ops_appendAll, if_pos rfl] at hop
      rcases List.mem_append.mp hop with hop | hop
      · exact List.mem_append_left _ (hdone op hop p hp)
      · rw [hexit op hop p hp]
        exact List.mem_append_right _ List.mem_cons_self
    have hsplit : ∀ p, p ∈ done ++ (args.exit ie).toList → p ∈ done ∨ args.exit ie = some p := by
      intro p hp
      rcases List.mem_append.mp hp with hp | hp
      · exact .inl hp
      · exact .inr (by simpa using hp)
    rw [Outcome.runAll_cons]
    cases hr : replayEntry env args ie st with
    | fail st' =>
      rw [hr] at hfile' hdone'
      refine ⟨hfile', fun op hop p hp => ?_⟩
      rcases hsplit p (hdone' op hop p hp) with h | h
      · exact .inl h
      · exact .inr ⟨ie, List.mem_cons_self, h⟩
    | ok st' =>
      have happ' := appended_replayEntry env args ie st
      rw [hr] at hfile' hdone' happ'
      have houter' : ∀ p ∈ done ++ (args.exit ie).toList, ∀ ie' ∈ l, entersAt p ie'.2.key = false := by
        intro p hp ie' hie'
        rcases hsplit p hp with h | h
        · exact houter p h ie' (List.mem_cons_of_mem _ hie')
        · exact hpair.1 ie' hie' p h
      have hcreated' : (∃ ie ∈ l, ie.2.kind = .link) → Created args st'.core.pathIndex := by
        rintro ⟨ie', hie', hk⟩
        exact (hcreated ⟨ie', List.mem_cons_of_mem _ hie', hk⟩).appended happ'
      obtain ⟨hinward, hexits⟩ := ih _ hfile' hdone' hpair.2 houter' hcreated'
      refine ⟨hinward, fun op hop p hp => ?_⟩
      rcases hexits op hop p hp with h | ⟨ie', hie', h⟩
      · rcases hsplit p h with h | h
        · exact .inl h
        · exact .inr ⟨ie, List.mem_cons_self, h⟩
      · exact .inr ⟨ie', List.mem_cons_of_mem _ hie', h⟩

/-- No entry goes through a link out of the step, neither one it replays earlier nor one that is in
the group already. -/
structure ReplayArgs.StaysInside (args : ReplayArgs) (file : StepFile) : Prop where
  later : ∀ (i j : Nat) (a b : Entry) (p : Path), i < j → args.manifest.entries[i]? = some a →
    args.manifest.entries[j]? = some b → b.kind.late → args.exit (i, a) = some p → entersAt p b.key = false
  left : ∀ op ∈ file.ops args.manifest.physicalStep, ∀ p, op.exit args.manifest.physicalStep = some p →
    ∀ e ∈ args.manifest.entries, entersAt p e.key = false

theorem sorted_zipIdx (entries : List Entry) :
    (entries.zipIdx.map fun (e, i) => (i, e)).Pairwise fun a b => a.1 < b.1 := by
  have hsorted : (entries.zipIdx.map Prod.snd).Pairwise (· < ·) := by
    rw [List.zipIdx_map_snd]
    exact List.pairwise_lt_range'
  rw [List.pairwise_map] at hsorted ⊢
  exact hsorted

/-- The replay order keeps the entries in order within its two passes, and a link is in the
second. -/
theorem ReplayArgs.StaysInside.order {args : ReplayArgs} {file : StepFile} (h : args.StaysInside file) :
    (replayOrder args.manifest.entries).Pairwise
      fun a b => ∀ p, args.exit a = some p → entersAt p b.2.key = false := by
  have hsorted := sorted_zipIdx args.manifest.entries
  have hearly : ∀ a : Nat × Entry, (!a.2.kind.late) = true → ∀ p, args.exit a ≠ some p := by
    intro a hlate p hp
    have hk : a.2.kind = .link := (exitOf_eq_some hp).1
    rw [hk] at hlate
    cases hlate
  unfold replayOrder
  simp only
  refine List.pairwise_append.mpr ⟨?_, ?_, ?_⟩
  · refine (List.pairwise_of_forall_mem_list (fun a ha b _ p hp => ?_))
    exact absurd hp (hearly a (List.mem_filter.mp ha).2 p)
  · refine (hsorted.filter _).imp_of_mem (fun {a b} ha hb hab p hp => ?_)
    obtain ⟨ha', -⟩ := List.mem_filter.mp ha
    obtain ⟨hb', hblate⟩ := List.mem_filter.mp hb
    simp only [List.mem_map, Prod.exists] at ha' hb'
    obtain ⟨e, i, hzip, rfl⟩ := ha'
    obtain ⟨e', j, hzip', rfl⟩ := hb'
    exact h.later i j e e' p hab (List.mem_zipIdx_iff_getElem?.mp hzip) (List.mem_zipIdx_iff_getElem?.mp hzip')
      hblate hp
  · intro a ha b _ p hp
    exact absurd hp (hearly a (List.mem_filter.mp ha).2 p)

/-- The first pass indexes every dataset the step creates. -/
theorem created_firstPass {env : ReplayEnv} {args : ReplayArgs} {st st' : Replay}
    (h : Outcome.runAll (replayEntry env args)
      ((args.manifest.entries.zipIdx.map fun (e, i) => (i, e)).filter fun ie => !ie.2.kind.late) st = .ok st') :
    Created args st'.core.pathIndex := by
  intro path hpath
  obtain ⟨c, hsteps, hcount⟩ := steps_loop env args
    ((args.manifest.entries.zipIdx.map fun (e, i) => (i, e)).filter fun ie => !ie.2.kind.late) st path
  rw [h] at hsteps hcount
  have hpos : 0 < c := by
    rw [hcount rfl, List.count_pos_iff]
    unfold creates at hpath
    rw [List.any_eq_true] at hpath
    obtain ⟨key, hkey, hkeq⟩ := hpath
    obtain ⟨e, he, rfl⟩ := List.mem_map.mp hkey
    have hkey : e.key = (.dsetCreate, path) := of_decide_eq_true hkeq
    obtain ⟨i, hi⟩ := List.mem_iff_getElem?.mp he
    unfold indexPaths
    refine List.mem_map.mpr ⟨e.key, List.mem_filter.mpr ⟨List.mem_map.mpr ⟨(i, e), List.mem_filter.mpr ⟨?_, ?_⟩, rfl⟩, ?_⟩, ?_⟩
    · exact List.mem_map.mpr ⟨(e, i), List.mem_zipIdx_iff_getElem?.mpr hi, rfl⟩
    · show (!e.key.1.late) = true
      rw [hkey]
      rfl
    · rw [hkey]
      rfl
    · rw [hkey]
  obtain ⟨d, rfl⟩ : ∃ d, c = d + 1 := ⟨c - 1, by omega⟩
  unfold pathIndexResolve
  rw [show (st'.core.pathIndex path).steps = _ from hsteps, List.reverse_append, List.reverse_replicate,
    List.find?_append, List.replicate_succ, List.find?_cons_of_pos (by simp)]
  rfl

theorem inward_entries (env : ReplayEnv) (args : ReplayArgs) {st : Replay}
    (hfile : st.core.file.Inward args.manifest.physicalStep) (hinside : args.StaysInside st.core.file) :
    (Outcome.runAll (replayEntry env args) (replayOrder args.manifest.entries) st).state.core.file.Inward
      args.manifest.physicalStep := by
  obtain ⟨done, hdone⟩ : ∃ done, done = (st.core.file.ops args.manifest.physicalStep).filterMap
    (FileOp.exit args.manifest.physicalStep) := ⟨_, rfl⟩
  have hmem : ∀ p, p ∈ done ↔ ∃ op ∈ st.core.file.ops args.manifest.physicalStep,
      op.exit args.manifest.physicalStep = some p := by
    intro p
    rw [hdone, List.mem_filterMap]
  have horder := hinside.order
  have houter : ∀ p ∈ done, ∀ ie ∈ replayOrder args.manifest.entries, entersAt p ie.2.key = false := by
    intro p hp ie hie
    obtain ⟨op, hop, hexit⟩ := (hmem p).mp hp
    exact hinside.left op hop p hexit ie.2 (List.mem_of_getElem? (getElem?_of_mem_replayOrder hie))
  unfold replayOrder at horder houter ⊢
  simp only at horder houter ⊢
  rw [List.pairwise_append] at horder
  rw [Outcome.runAll_append]
  obtain ⟨hfirst, hexits⟩ := inward_loop env args done hfile (fun op hop p hp => (hmem p).mpr ⟨op, hop, hp⟩) horder.1
    (fun p hp ie hie => houter p hp ie (List.mem_append_left _ hie))
    (by
      rintro ⟨ie, hie, hk⟩
      have hlate := (List.mem_filter.mp hie).2
      rw [hk] at hlate
      cases hlate)
  cases hrun : Outcome.runAll (replayEntry env args)
      ((args.manifest.entries.zipIdx.map fun (e, i) => (i, e)).filter fun ie => !ie.2.kind.late) st with
  | fail st' =>
    rw [hrun] at hfirst
    exact hfirst
  | ok st' =>
    rw [hrun] at hfirst hexits
    rw [Outcome.bind_ok]
    refine (inward_loop env args done hfirst ?_ horder.2.1
      (fun p hp ie hie => houter p hp ie (List.mem_append_right _ hie)) (fun _ => created_firstPass hrun)).1
    intro op hop p hp
    rcases hexits op hop p hp with h | ⟨ie, hie, hexit⟩
    · exact h
    · -- the first pass holds no link
      have hk : ie.2.kind = .link := (exitOf_eq_some hexit).1
      have hlate := (List.mem_filter.mp hie).2
      rw [hk] at hlate
      cases hlate

-- calls that never go through a link: they are made on what the step has made
def FileOp.Settled (op : FileOp) : Prop := ∀ p k, op.entersAt p = false ∧ op.exit k = none

theorem StepFile.Inward.settled {file : StepFile} {n : Nat} (h : file.Inward n) (m : Nat) {ops : List FileOp}
    (hops : ∀ op ∈ ops, op.Settled) : (file.appendAll m ops).Inward n := by
  unfold StepFile.Inward
  rw [StepFile.ops_appendAll]
  split
  · refine List.pairwise_append.mpr ⟨h, ?_, fun _ _ op' hop' p _ => (hops op' hop' p 0).1⟩
    exact List.pairwise_of_forall_mem_list (fun _ _ op' hop' p _ => (hops op' hop' p 0).1)
  · exact h

theorem logged_carryForwardResized (env : ReplayEnv) (m : Step) (st : Replay) :
    st.Logged m.physicalStep FileOp.Settled (carryForwardResized env m st) := by
  unfold carryForwardResized
  induction m.entries.zipIdx.map (fun (e, i) => (i, e)) generalizing st with
  | nil => exact .refl _ _ st
  | cons ie l ih =>
    refine Replay.Logged.trans ?_ (ih (carryForwardOne env m st ie))
    unfold carryForwardOne
    split
    · exact .refl _ _ st
    · split
      · split
        · exact .refl _ _ st
        · exact st.logged_logOp (fun _ _ => ⟨rfl, rfl⟩)
      · exact .refl _ _ st

theorem settled_closing (env : ReplayEnv) (config : Config) (m : Step) :
    ∀ op ∈ env.closing config m, op.Settled := by
  intro op hop p k
  unfold ReplayEnv.closing at hop
  rcases List.mem_append.mp hop with hop | hop
  · split at hop
    · cases hop
    · rw [List.mem_singleton.mp hop]
      exact ⟨rfl, rfl⟩
  · split at hop
    · rw [List.mem_singleton.mp hop]
      exact ⟨rfl, rfl⟩
    · cases hop

theorem inward_replayManifest (env : ReplayEnv) (args : ReplayArgs) {st : Replay}
    (hfile : st.core.file.Inward args.manifest.physicalStep) (hinside : args.StaysInside st.core.file) :
    (replayManifest env args st).state.core.file.Inward args.manifest.physicalStep := by
  have hloop := inward_entries env args hfile hinside
  unfold replayManifest
  split
  · exact hfile
  · cases hrun : Outcome.runAll (replayEntry env args) (replayOrder args.manifest.entries) st with
    | fail s =>
      rw [hrun] at hloop
      exact hloop
    | ok s =>
      rw [hrun] at hloop
      rw [Outcome.bind_ok, persist_eq]
      obtain ⟨ops, hops, hcarry, -⟩ := logged_carryForwardResized env args.manifest s
      have hcarried : (carryForwardResized env args.manifest s).core.file.Inward args.manifest.physicalStep := by
        rw [hcarry]
        exact hloop.settled _ hops
      split
      · exact hcarried
      · refine StepFile.Inward.settled ?_ _ (settled_closing env _ args.manifest)
        unfold StepFile.Inward
        rw [StepFile.ops_ensure]
        exact hcarried

/-! ## The step being ended -/

/-- The path of a captured link whose target the step does not create. -/
def Core.exit (fs : Core) (pe : PendingEntry) : Option Path :=
  exitOf (fs.pending.map PendingEntry.key) pe.key pe.payload

/-- Nothing the step captured lies at or below a link out of the step: one captured before it, or one
an abandoned step left in the group. -/
structure Core.StaysInside (fs : Core) : Prop where
  later : ∀ (i j : Nat) (a b : PendingEntry) (p : Path), i < j → fs.pending[i]? = some a →
    fs.pending[j]? = some b → b.kind.late → fs.exit a = some p → entersAt p b.key = false
  left : ∀ op ∈ fs.file.ops fs.physicalStep, ∀ p, op.exit fs.physicalStep = some p →
    ∀ b ∈ fs.pending, entersAt p b.key = false

theorem Core.StaysInside.of_no_link {fs : Core} (hpending : ∀ pe ∈ fs.pending, pe.kind ≠ .link)
    (hfile : fs.file.ops fs.physicalStep = []) : fs.StaysInside := by
  constructor
  · intro i j a b p _ ha _ _ hexit
    exact absurd (exitOf_eq_some hexit).1 (hpending a (List.mem_of_getElem? ha))
  · rw [hfile]
    exact List.forall_mem_nil _

theorem Core.StaysInside.replayArgs {build : BuildEnv} {fs : Core} {m : Step} (h : fs.StaysInside)
    (hbuild : (buildManifest build fs).2 = some m) :
    ((buildManifest build fs).1.replayArgs m).StaysInside fs.file := by
  have hkeys := keys_of_shapes (shapes_buildManifest hbuild)
  obtain ⟨w, hfs, hm⟩ : ∃ w, (buildManifest build fs).1 = { fs with writeTypeCache := w } ∧ ∀ m,
      (buildManifest build fs).2 = some m → m.physicalStep = fs.physicalStep ∧ m.indexPaths = fs.pendingPaths :=
    buildManifest_eq rfl
  have hnumber := (hm m hbuild).1
  have hat : ∀ (i : Nat) (e : Entry), m.entries[i]? = some e →
      ∃ pe : PendingEntry, fs.pending[i]? = some pe ∧ pe.key = e.key := by
    intro i e he
    have := congrArg (·[i]?) hkeys
    simp only [List.getElem?_map, he, Option.map_some] at this
    cases hpe : fs.pending[i]? with
    | none =>
      rw [hpe] at this
      cases this
    | some pe =>
      rw [hpe, Option.map_some, Option.some.injEq] at this
      exact ⟨pe, rfl, this.symm⟩
  rw [hfs]
  refine ⟨fun i j a b p hij ha hb hlate hexit => ?_, fun op hop p hp e he => ?_⟩
  · obtain ⟨pa, hpa, hkeya⟩ := hat i a ha
    obtain ⟨pb, hpb, hkeyb⟩ := hat j b hb
    rw [← hkeyb]
    refine h.later i j pa pb p hij hpa hpb ?_ ?_
    · rw [show pb.kind = b.kind from congrArg Prod.fst hkeyb]
      exact hlate
    · unfold ReplayArgs.exit at hexit
      unfold Core.exit
      rw [← hkeys, hkeya]
      have hpayload : (Core.replayArgs { fs with writeTypeCache := w } m).payload i = pa.payload := by
        simp only [Core.replayArgs, hpa, Option.map_some, Option.getD_some]
      rw [← hpayload]
      exact hexit
  · obtain ⟨i, hi⟩ := List.mem_iff_getElem?.mp he
    obtain ⟨pe, hpe, hkey⟩ := hat i e hi
    rw [← hkey]
    have hstep : (Core.replayArgs { fs with writeTypeCache := w } m).manifest.physicalStep = fs.physicalStep := hnumber
    rw [hstep] at hop hp
    exact h.left op hop p hp pe (List.mem_of_getElem? hpe)

theorem inward_replayStep (build : BuildEnv) (env : ReplayEnv) {st : Replay}
    (hfile : st.core.file.Inward st.core.physicalStep) (hinside : st.core.StaysInside) :
    (replayStep build env st).state.core.file.Inward st.core.physicalStep := by
  unfold replayStep
  have hargs : ∀ m, (buildManifest build st.core).2 = some m →
      ((buildManifest build st.core).1.replayArgs m).StaysInside st.core.file := fun m hm => hinside.replayArgs hm
  cases hbuild : buildManifest build st.core with
  | mk fs res =>
    obtain ⟨w, hfs, hm⟩ := buildManifest_eq hbuild
    cases res with
    | none =>
      simp only [hfs]
      exact hfile
    | some m =>
      simp only
      have hnumber : (fs.replayArgs m).manifest.physicalStep = st.core.physicalStep := (hm m rfl).1
      have hargs' := hargs m (by rw [hbuild])
      rw [hbuild] at hargs'
      have hsame : ({ st with core := fs } : Replay).core.file = st.core.file := by rw [hfs]
      rw [← hnumber]
      refine inward_replayManifest env (fs.replayArgs m) ?_ ?_
      · rw [hsame, hnumber]
        exact hfile
      · rw [hsame]
        exact hargs'

theorem StepFile.ops_congr {file file' : StepFile} {k : Nat} (h : file'.find? k = file.find? k) :
    file'.ops k = file.ops k := by
  unfold StepFile.ops
  rw [h]

theorem StepFile.Inward.congr {file file' : StepFile} {k : Nat} (h : file.Inward k)
    (hfind : file'.find? k = file.find? k) : file'.Inward k := by
  unfold StepFile.Inward
  rw [StepFile.ops_congr hfind]
  exact h

/-- The queue policy with nothing queued and no spill. -/
theorem inward_applyQueuePolicy (env : EndEnv) (st : Replay) (hqueue : st.core.pendingSpill = [])
    (hpolicy : st.core.queuePolicy ≠ some .spill) (hfile : st.core.file.Inward st.core.physicalStep)
    (hinside : st.core.StaysInside) :
    (applyQueuePolicy env st).state.core.file.Inward st.core.physicalStep := by
  have hdrained : drained env st = st := by
    unfold drained drainFirst
    rw [hqueue]
    simp
  rw [applyQueuePolicy_eq, hdrained]
  cases hfate : st.core.fate env.lag with
  | replay => exact inward_replayStep env.build env.replay hfile hinside
  | drop =>
    simp only [dropped, discardStep]
    cases env.discardFails with
    | true => exact hfile
    | false =>
      simp only [Bool.false_eq_true, if_false, Outcome.state_ok]
      unfold StepFile.Inward
      rw [StepFile.ops_ensure]
      exact hfile
  | spill => exact absurd hfate (Core.fate_ne_spill hpolicy env.lag)

/-- `H5Fend_step` keeps every group to itself. -/
theorem inward_endStep (env : EndEnv) {w : Writer} (hqueue : w.core.pendingSpill = [])
    (hpolicy : w.core.queuePolicy ≠ some .spill) (hfile : ∀ k, w.core.file.Inward k)
    (hinside : (w.core.folded env).StaysInside) (k : Nat) :
    (endStep env w).state.core.file.Inward k := by
  obtain ⟨pending, bytes, hfold⟩ := folded_eq w.core env
  have hnumber : (w.core.folded env).physicalStep = w.core.physicalStep := by rw [hfold]
  have hsame : (w.core.folded env).file = w.core.file := by rw [hfold]
  have hspill : (w.core.folded env).pendingSpill = [] := by rw [hfold]; exact hqueue
  have hworked := (applyQueuePolicy_spec env ⟨w.core.folded env, [], w.lookups⟩).1
  have hown := inward_applyQueuePolicy env ⟨w.core.folded env, [], w.lookups⟩ hspill
    (by rw [Core.queuePolicy_folded]; exact hpolicy) (by rw [hsame]; exact hfile _) hinside
  have hall : ∀ k, (applyQueuePolicy env ⟨w.core.folded env, [], w.lookups⟩).state.core.file.Inward k := by
    intro k
    by_cases hk : k = (w.core.folded env).physicalStep
    · rw [hk]
      exact hown
    · refine (hfile k).congr ((hworked.same k (fun ht => hk ?_)).trans (by rw [hsame]))
      rcases ht with ht | ⟨q, hq, -⟩
      · exact ht
      · have hmem := Core.mem_of_due hq
        rw [hspill] at hmem
        cases hmem
  unfold endStep
  split
  · exact hfile k
  · simp only
    cases happly : applyQueuePolicy env ⟨w.core.folded env, [], w.lookups⟩ with
    | ok st =>
      rw [happly] at hall
      exact hall k
    | fail st =>
      rw [happly] at hall
      simp only [Outcome.state_fail, Core.dropStep, Core.discardPending]
      split
      · exact hall k
      · unfold StepFile.Inward
        rw [StepFile.ops_unlink]
        split
        · exact List.Pairwise.nil
        · exact hall k

end VolStream
