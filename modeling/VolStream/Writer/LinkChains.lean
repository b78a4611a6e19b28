import VolStream.Writer.Made
import VolStream.Writer.Deferred

/-!
# Links and their targets

A link made in a step names the copy of its target as of that step. A step that writes the target
again links it again (`H5VL__stream_fold_links`), so that a reader finds the same copy through the link
as through the target. Only the dataset a known link names is looked for: a link to a link is not linked
again when the dataset at the end of the chain is written, nor when a link in between is re-pointed.
-/

namespace VolStream

/-! ## What the application made of a path -/

/-- What a path is: a dataset, or a link to another path. -/
inductive Node where
  | dataset
  | link (target : Path)
deriving DecidableEq, Repr

-- the path a link entry names
def Payload.target : Payload → Path
  | .link _ target => target
  | .bytes _ => []

def PendingEntry.nodeAt (path : Path) (pe : PendingEntry) : Option Node :=
  if pe.path = path then
    match pe.kind with
    | .dsetCreate => some .dataset
    | .link => some (.link pe.payload.target)
    | _ => none
  else none

def PendingEntry.linkAt (path : Path) (pe : PendingEntry) : Option Path :=
  if pe.path = path ∧ pe.kind = .link then some pe.payload.target else none

-- what each committed step captured
abbrev Ledger := List (List PendingEntry)

/-- What a path is after these steps: what the last entry that names it made it. -/
def Ledger.node (steps : Ledger) (path : Path) : Option Node :=
  steps.flatten.reverse.findSome? (PendingEntry.nodeAt path)

/-- The target the path was last linked to, whatever it became since. -/
def Ledger.link (steps : Ledger) (path : Path) : Option Path :=
  steps.flatten.reverse.findSome? (PendingEntry.linkAt path)

/-- The chain of links from a path ends at a dataset. -/
inductive LeadsTo (node : Path → Option Node) : Path → Path → Prop where
  | dataset {path : Path} (h : node path = some .dataset) : LeadsTo node path path
  | link {path target dset : Path} (h : node path = some (.link target)) (hrest : LeadsTo node target dset) :
      LeadsTo node path dset

theorem LeadsTo.dataset_at {node : Path → Option Node} {path dset : Path} (h : LeadsTo node path dset) :
    node dset = some .dataset := by
  induction h with
  | dataset h => exact h
  | link _ _ ih => exact ih

/-! ## Opening a path -/

/-- `H5Dopen` of `/step/<n><path>`: the dataset found, by the group and the path it was created under.
A hard link was bound to its target when it was made and a soft one is followed now; the names of a
group are never taken twice, so both lead to the same object. -/
inductive StepFile.Opens (file : StepFile) : Nat → Path → Nat × Path → Prop where
  | dataset {n : Nat} {path : Path} {t : Datatype} {space : Dataspace} {dcpl : Option Bytes}
      (h : file.objectAt n path = some (.datasetCreate path t space dcpl)) : Opens file n path (n, path)
  | virtual {n : Nat} {path : Path} {r : Nat} (h : file.objectAt n path = some (.aliasCreate path r)) :
      Opens file n path (n, path)
  | link {n : Nat} {path : Path} {hard : Bool} {r : Nat} {target : Path} {o : Nat × Path}
      (h : file.objectAt n path = some (.linkCreate path hard (some r) target)) (hrest : Opens file r target o) :
      Opens file n path o

theorem StepFile.Opens.unique {file : StepFile} {n : Nat} {path : Path} {o o' : Nat × Path}
    (h : file.Opens n path o) (h' : file.Opens n path o') : o' = o := by
  induction h with
  | dataset h =>
    cases h' with
    | dataset h' => rfl
    | virtual h' => rfl
    | link h' _ =>
      rw [h] at h'
      cases h'
  | virtual h =>
    cases h' with
    | dataset h' => rfl
    | virtual h' => rfl
    | link h' _ =>
      rw [h] at h'
      cases h'
  | link h _ ih =>
    cases h' with
    | dataset h' =>
      rw [h] at h'
      cases h'
    | virtual h' =>
      rw [h] at h'
      cases h'
    | link h' hrest =>
      rw [h] at h'
      cases h'
      exact ih hrest

/-- Filling a group that was empty leaves what could be opened. -/
theorem StepFile.Opens.fill {file file' : StepFile} {n : Nat} (hempty : file.ops n = [])
    (hother : ∀ k, k ≠ n → file'.ops k = file.ops k) {k : Nat} {path : Path} {o : Nat × Path}
    (h : file.Opens k path o) : file'.Opens k path o := by
  have hsame : ∀ {k : Nat} {path : Path} {op : FileOp}, file.objectAt k path = some op →
      file'.objectAt k path = some op := by
    intro k path op hop
    have hk : k ≠ n := by
      rintro rfl
      rw [StepFile.objectAt, hempty] at hop
      cases hop
    rw [StepFile.objectAt_congr (hother k hk)]
    exact hop
  induction h with
  | dataset h => exact .dataset (hsame h)
  | virtual h => exact .virtual (hsame h)
  | link h _ ih => exact .link (hsame h) ih

/-- `H5VL__stream_reader_open_dataset`. -/
def Reader.Opens (fs : Reader) (file : StepFile) (path : Path) (o : Nat × Path) : Prop :=
  ∃ s, pathIndexResolve fs.pathIndex path fs.currentStep = some s ∧ file.Opens s path o

/-! ## When links follow -/

-- the step links the path itself
def Core.linksItself (fs : Core) (path : Path) : Bool := fs.pending.any fun pe => pe.kind = .link ∧ pe.path = path

/-- The step writes the link's target and does not link the path itself. -/
def Core.relinks (fs : Core) (link : Path × LinkRec) : Bool :=
  fs.creates link.2.target && !fs.linksItself link.1

/-- The links that have to be made again fit below the pending-byte limit. -/
def Core.LinkRoom (fs : Core) : Prop :=
  fs.config.maxPending = 0
    ∨ fs.pendingBytes + ((fs.links.filter fs.relinks).map fun link => link.2.target.length + 1).sum
      ≤ fs.config.maxPending

-- two entries that make the same path are both creates
def MadeOnce (pending : List PendingEntry) : Prop :=
  pending.Pairwise fun a b => ∀ path, a.nodeAt path ≠ none → b.nodeAt path ≠ none →
    a.kind = .dsetCreate ∧ b.kind = .dsetCreate

-- the step links one path and after it the other
def LinksInTurn (pending : List PendingEntry) (first second : Path) : Prop :=
  ∃ (i j : Nat) (pe pe' : PendingEntry), i < j ∧ pending[i]? = some pe ∧ pending[j]? = some pe' ∧ pe.kind = .link ∧ pe.path = first
    ∧ pe'.kind = .link ∧ pe'.path = second

/-- A step that keeps the links in order: `steps` is what was committed before it. -/
structure LinksKept (steps : Ledger) (w : Writer) (env : EndEnv) : Prop where
  once : MadeOnce w.core.pending
  room : (foldGroupAttrs env.groupAttr w.core).LinkRoom
  made : ∀ (i : Nat) (pe : PendingEntry), (w.core.folded env).pending[i]? = some pe → pe.kind = .link →
    pe.payload.target ≠ [] ∧ env.replay.fails i .linkCreate = false ∧ env.replay.fails i .linkNote = false
  free : (w.core.folded env).pending.Pairwise fun a b =>
    a.kind = .attr → b.kind = .link → attrParent a.path ≠ some b.path
  attrs : ∀ pe ∈ (w.core.folded env).pending, pe.kind = .attr → (steps ++ [w.core.pending]).node pe.path = none
  -- a path that was linked and made a dataset since is not linked again
  current : ∀ path target, steps.link path = some target → w.core.creates target = true →
    ∃ target', (steps ++ [w.core.pending]).node path = some (.link target')
  -- a link to a link follows it only if both are made again, in this order
  chains : ∀ path target target' dset, (steps ++ [w.core.pending]).node path = some (.link target) →
    (steps ++ [w.core.pending]).node target = some (.link target') →
    LeadsTo (steps ++ [w.core.pending]).node target dset →
      (LeadsTo steps.node target dset ∧ w.core.creates dset = false) ∨ LinksInTurn w.core.pending target path

/-- A failing step that leaves the links and the file as they were. -/
structure LinksRestored (w : Writer) (env : EndEnv) : Prop where
  removed : env.unlinkFails = false
  held : ∀ m, (buildManifest env.build (w.core.folded env)).2 = some m → env.replay.startFails = false →
    ∀ ie ∈ reached env.replay ((w.core.folded env).replayArgs m) w.core.pathIndex w.core.replayTypeCache
      (replayOrder m.entries), linkHeld env.replay ((w.core.folded env).replayArgs m) w.core.links ie

/-- Two writers, one without a queue policy, and what was committed. -/
structure Recorded where
  twin : Twin
  steps : Ledger

def Recorded.init (config : Config) : Recorded := ⟨.init config, []⟩

def Recorded.apply (s : Recorded) (ev : Event) : Recorded :=
  ⟨s.twin.apply ev,
    match ev with
    | .endStep env => if (endStep env s.twin.spilling).isOk then s.steps ++ [s.twin.spilling.core.pending] else s.steps
    | _ => s.steps⟩

def Recorded.after (config : Config) (events : List Event) : Recorded := Runs.run Recorded.apply (.init config) events

def Following (answers : Nat → ReplayEnv) (s : Recorded) : Event → Prop
  | .endStep env => s.twin.spilling.core.stepState = .inStep → EndDeferred answers s.twin env
      ∧ if (endStep env s.twin.spilling).isOk then LinksKept s.steps s.twin.immediate env
        else LinksRestored s.twin.immediate env
  | _ => True

/-! ## What a step makes of a path -/

theorem Ledger.node_append (steps : Ledger) (pending : List PendingEntry) (path : Path) :
    Ledger.node (steps ++ [pending]) path
      = (pending.reverse.findSome? (PendingEntry.nodeAt path)).or (steps.node path) := by
  unfold Ledger.node
  rw [List.flatten_append, List.flatten_singleton, List.reverse_append, List.findSome?_append]

theorem Ledger.link_append (steps : Ledger) (pending : List PendingEntry) (path : Path) :
    Ledger.link (steps ++ [pending]) path
      = (pending.reverse.findSome? (PendingEntry.linkAt path)).or (steps.link path) := by
  unfold Ledger.link
  rw [List.flatten_append, List.flatten_singleton, List.reverse_append, List.findSome?_append]

theorem nodeAt_link {pe : PendingEntry} (h : pe.kind = .link) :
    pe.nodeAt pe.path = some (.link pe.payload.target) := by
  unfold PendingEntry.nodeAt
  rw [if_pos rfl, h]

theorem nodeAt_create {pe : PendingEntry} (h : pe.kind = .dsetCreate) : pe.nodeAt pe.path = some .dataset := by
  unfold PendingEntry.nodeAt
  rw [if_pos rfl, h]

theorem nodeAt_eq_some {pe : PendingEntry} {path : Path} {node : Node} (h : pe.nodeAt path = some node) :
    pe.path = path ∧ ((pe.kind = .dsetCreate ∧ node = .dataset)
      ∨ (pe.kind = .link ∧ node = .link pe.payload.target)) := by
  unfold PendingEntry.nodeAt at h
  split at h
  · rename_i hpath
    refine ⟨hpath, ?_⟩
    split at h
    · rename_i hk
      exact .inl ⟨hk, (Option.some.inj h).symm⟩
    · rename_i hk
      exact .inr ⟨hk, (Option.some.inj h).symm⟩
    · cases h
  · cases h

/-- All entries that make a path make the same of it. -/
theorem findSome?_reverse_of_agree {α β : Type} {f : α → Option β} {l : List α} {b : β} {a : α} (ha : a ∈ l)
    (hab : f a = some b) (hall : ∀ a' ∈ l, ∀ b', f a' = some b' → b' = b) : l.reverse.findSome? f = some b := by
  have hsome : (l.reverse.findSome? f).isSome = true := by
    rw [List.findSome?_isSome_iff]
    exact ⟨a, List.mem_reverse.mpr ha, by rw [hab]; rfl⟩
  obtain ⟨b', hb'⟩ := Option.isSome_iff_exists.mp hsome
  obtain ⟨a', ha', hfa'⟩ := List.exists_of_findSome?_eq_some hb'
  rw [hb', hall a' (List.mem_reverse.mp ha') b' hfa']

theorem MadeOnce.agree {pending : List PendingEntry} (h : MadeOnce pending) {pe pe' : PendingEntry}
    (hpe : pe ∈ pending) (hpe' : pe' ∈ pending) {path : Path} {node node' : Node} (hnode : pe.nodeAt path = some node)
    (hnode' : pe'.nodeAt path = some node') : node' = node := by
  have hsymm : Std.Symm fun a b : PendingEntry => ∀ path, a.nodeAt path ≠ none → b.nodeAt path ≠ none →
      a.kind = .dsetCreate ∧ b.kind = .dsetCreate := ⟨fun a b hab path ha hb => (hab path hb ha).symm⟩
  by_cases heq : pe = pe'
  · rw [← heq, hnode] at hnode'
    exact (Option.some.inj hnode').symm
  · obtain ⟨hk, hk'⟩ := List.Pairwise.forall h hpe hpe' heq path (by simp [hnode]) (by simp [hnode'])
    obtain ⟨-, hd⟩ := nodeAt_eq_some hnode
    obtain ⟨-, hd'⟩ := nodeAt_eq_some hnode'
    rw [hk] at hd
    rw [hk'] at hd'
    simp only [true_and, reduceCtorEq, false_and, or_false] at hd hd'
    rw [hd, hd']

/-- An entry that makes the path says what it is after the step. -/
theorem MadeOnce.node {pending : List PendingEntry} (h : MadeOnce pending) (steps : Ledger) {pe : PendingEntry}
    (hpe : pe ∈ pending) {path : Path} {node : Node} (hnode : pe.nodeAt path = some node) :
    Ledger.node (steps ++ [pending]) path = some node := by
  rw [Ledger.node_append, findSome?_reverse_of_agree hpe hnode fun pe' hpe' _ hnode' => h.agree hpe hpe' hnode hnode']
  rfl

/-- A path the step does not make is what it was. -/
theorem node_of_not_made {pending : List PendingEntry} (steps : Ledger) {path : Path}
    (h : ∀ pe ∈ pending, pe.nodeAt path = none) : Ledger.node (steps ++ [pending]) path = steps.node path := by
  rw [Ledger.node_append, List.findSome?_eq_none_iff.mpr fun pe hpe => h pe (List.mem_reverse.mp hpe)]
  rfl

theorem link_of_node {steps : Ledger} {path target : Path} (h : steps.node path = some (.link target)) :
    steps.link path = some target := by
  unfold Ledger.node at h
  unfold Ledger.link
  generalize steps.flatten.reverse = l at h ⊢
  induction l with
  | nil => cases h
  | cons pe l ih =>
    rw [List.findSome?_cons] at h ⊢
    cases hnode : pe.nodeAt path with
    | none =>
      rw [hnode] at h
      have hlink : pe.linkAt path = none := by
        unfold PendingEntry.linkAt
        refine if_neg fun hk => ?_
        rw [← hk.1, nodeAt_link hk.2] at hnode
        cases hnode
      rw [hlink]
      exact ih h
    | some node =>
      rw [hnode] at h
      cases h
      obtain ⟨hpath, hk⟩ := nodeAt_eq_some hnode
      rcases hk with ⟨-, hk⟩ | ⟨hk, htarget⟩
      · cases hk
      · unfold PendingEntry.linkAt
        rw [if_pos ⟨hpath, hk⟩, Node.link.inj htarget]

theorem Core.creates_iff (fs : Core) (path : Path) :
    fs.creates path = true ↔ ∃ pe ∈ fs.pending, pe.kind = .dsetCreate ∧ pe.path = path := by
  unfold Core.creates
  rw [List.any_eq_true]
  simp only [decide_eq_true_eq]

theorem Core.linksItself_iff (fs : Core) (path : Path) :
    fs.linksItself path = true ↔ ∃ pe ∈ fs.pending, pe.kind = .link ∧ pe.path = path := by
  unfold Core.linksItself
  rw [List.any_eq_true]
  simp only [decide_eq_true_eq]

/-! ## The step as it is replayed -/

-- a known link made again
def relink (link : Path × LinkRec) : PendingEntry :=
  ⟨.link, link.1, nativeUchar, ⟨.scalar, .all⟩, none, .link link.2.hard link.2.target, none⟩

theorem foldLink_eq {fs : Core} {link : Path × LinkRec} (hroom : fs.config.maxPending = 0
    ∨ (fs.relinks link = true → fs.pendingBytes + (link.2.target.length + 1) ≤ fs.config.maxPending)) :
    foldLink fs link = if fs.relinks link then { fs with
        pending := fs.pending ++ [relink link]
        pendingBytes := fs.pendingBytes + (link.2.target.length + 1) } else fs := by
  have hcond : (fs.creates link.2.target = true ∧ (!fs.linksItself link.1) = true) ↔ fs.relinks link = true := by
    unfold Core.relinks
    rw [Bool.and_eq_true]
  show (if fs.creates link.2.target = true ∧ (!fs.linksItself link.1) = true then _ else fs) = _
  by_cases hre : fs.relinks link = true
  · rw [if_pos (hcond.mpr hre), if_pos hre]
    have hfits : ¬ (0 < fs.config.maxPending ∧ 0 < link.2.target.length + 1
        ∧ (link.2.target.length + 1 > fs.config.maxPending
          ∨ fs.pendingBytes > fs.config.maxPending - (link.2.target.length + 1))) := by
      rcases hroom with hnone | hfits
      · omega
      · have hfits := hfits hre
        omega
    have happend : pendingAppend fs (relink link) = some { fs with
        pending := fs.pending ++ [relink link]
        pendingBytes := fs.pendingBytes + (link.2.target.length + 1) } := if_neg hfits
    show (pendingAppend fs (relink link)).getD fs = _
    rw [happend]
    rfl
  · rw [if_neg (fun h => hre (hcond.mp h)), if_neg hre]

theorem relinks_append {fs : Core} {link link' : Path × LinkRec} (hne : link'.1 ≠ link.1) (bytes : Nat) :
    Core.relinks { fs with pending := fs.pending ++ [relink link], pendingBytes := bytes } link' = fs.relinks link' := by
  unfold Core.relinks Core.creates Core.linksItself
  simp [relink, Ne.symm hne]

/-- Every known link whose target the step writes is made again, and no other. -/
theorem foldl_foldLink (links : List (Path × LinkRec)) (fs : Core) (hnodup : (links.map Prod.fst).Nodup)
    (hroom : fs.config.maxPending = 0
      ∨ fs.pendingBytes + ((links.filter fs.relinks).map fun link => link.2.target.length + 1).sum
        ≤ fs.config.maxPending) :
    (links.foldl foldLink fs).pending = fs.pending ++ (links.filter fs.relinks).map relink := by
  induction links generalizing fs with
  | nil => exact (List.append_nil _).symm
  | cons link links ih =>
    rw [List.map_cons, List.nodup_cons] at hnodup
    have hother : ∀ link' ∈ links, link'.1 ≠ link.1 := fun link' hlink' heq =>
      hnodup.1 (heq ▸ List.mem_map_of_mem hlink')
    rw [List.foldl_cons]
    by_cases hre : fs.relinks link = true
    · rw [List.filter_cons_of_pos hre, List.map_cons, List.sum_cons] at hroom
      have hsame : links.filter (Core.relinks { fs with
            pending := fs.pending ++ [relink link]
            pendingBytes := fs.pendingBytes + (link.2.target.length + 1) }) = links.filter fs.relinks :=
        List.filter_congr fun link' hlink' => relinks_append (hother link' hlink') _
      rw [foldLink_eq (hroom.imp id fun h _ => by omega), if_pos hre, ih _ hnodup.2, hsame,
        List.filter_cons_of_pos hre, List.map_cons]
      · simp
      · rw [hsame]
        rcases hroom with h | h
        · exact .inl h
        · exact .inr (by show fs.pendingBytes + (link.2.target.length + 1) + _ ≤ fs.config.maxPending; omega)
    · rw [List.filter_cons_of_neg hre] at hroom
      rw [foldLink_eq (.inr fun h => absurd h hre), if_neg hre, ih fs hnodup.2 hroom, List.filter_cons_of_neg hre]

theorem pending_appendOrKeep (fs : Core) (e : PendingEntry) :
    ((pendingAppend fs e).getD fs).pending = fs.pending ∨ ((pendingAppend fs e).getD fs).pending = fs.pending ++ [e] := by
  unfold pendingAppend
  simp only
  split
  · exact .inl rfl
  · exact .inr rfl

theorem foldGroupAttrs_pending (answer : Path → Option GroupAttr) (fs : Core) :
    ∃ attrs, (∀ pe ∈ attrs, pe.kind = .attr) ∧ (foldGroupAttrs answer fs).pending = fs.pending ++ attrs := by
  have hone : ∀ (fs : Core) (path : Path), ∃ attrs : List PendingEntry, (∀ pe ∈ attrs, pe.kind = .attr)
      ∧ (foldGroupAttr answer fs path).pending = fs.pending ++ attrs := by
    intro fs path
    have hsame : ∃ attrs : List PendingEntry, (∀ pe ∈ attrs, pe.kind = .attr) ∧ fs.pending = fs.pending ++ attrs :=
      ⟨[], List.forall_mem_nil _, (List.append_nil _).symm⟩
    unfold foldGroupAttr
    split
    · exact hsame
    · split
      · exact hsame
      · split
        · exact hsame
        · rcases pending_appendOrKeep fs _ with hkeep | happend
          · exact ⟨[], List.forall_mem_nil _, by rw [hkeep, List.append_nil]⟩
          · exact ⟨_, fun pe hpe => by rw [List.mem_singleton.mp hpe], happend⟩
  unfold foldGroupAttrs
  show ∃ attrs : List PendingEntry, (∀ pe ∈ attrs, pe.kind = .attr)
    ∧ (fs.groupAttrs.foldl (foldGroupAttr answer) fs).pending = fs.pending ++ attrs
  generalize fs.groupAttrs = paths
  induction paths generalizing fs with
  | nil => exact ⟨[], List.forall_mem_nil _, (List.append_nil _).symm⟩
  | cons path paths ih =>
    obtain ⟨attrs, hattrs, hpending⟩ := hone fs path
    obtain ⟨attrs', hattrs', hpending'⟩ := ih (foldGroupAttr answer fs path)
    refine ⟨attrs ++ attrs', fun pe hpe => ?_, ?_⟩
    · rcases List.mem_append.mp hpe with hpe | hpe
      · exact hattrs pe hpe
      · exact hattrs' pe hpe
    · rw [List.foldl_cons, hpending', hpending, List.append_assoc]

/-- The step as it is replayed: what was captured, the waiting attributes, the links made again. -/
theorem folded_pending {fs : Core} {env : EndEnv} (hnodup : fs.links.keys.Nodup)
    (hroom : (foldGroupAttrs env.groupAttr fs).LinkRoom) :
    ∃ attrs, (∀ pe ∈ attrs, pe.kind = .attr)
      ∧ (fs.folded env).pending = fs.pending ++ attrs ++ (fs.links.filter fs.relinks).map relink := by
  obtain ⟨attrs, hattrs, hpending⟩ := foldGroupAttrs_pending env.groupAttr fs
  have hlinks : (foldGroupAttrs env.groupAttr fs).links = fs.links := by
    obtain ⟨p, b, hsame⟩ := Core.SameButPending.foldl (sameButPending_foldGroupAttr env.groupAttr) fs.groupAttrs fs
    rw [foldGroupAttrs, hsame]
  have hrelinks : (foldGroupAttrs env.groupAttr fs).relinks = fs.relinks := by
    funext link
    have hnone : ∀ (k : Kind) (path : Path), k ≠ .attr →
        (attrs.any fun pe => decide (pe.kind = k ∧ pe.path = path)) = false := by
      intro k path hk
      rw [List.any_eq_false]
      intro pe hpe
      rw [decide_eq_true_eq, hattrs pe hpe]
      exact fun h => hk h.1.symm
    unfold Core.relinks Core.creates Core.linksItself
    rw [hpending, List.any_append, List.any_append, hnone .dsetCreate _ (by decide), hnone .link _ (by decide),
      Bool.or_false, Bool.or_false]
  refine ⟨attrs, hattrs, ?_⟩
  show (foldLinks (foldGroupAttrs env.groupAttr fs)).pending = _
  unfold foldLinks
  rw [foldl_foldLink _ _ (by rw [hlinks]; exact hnodup) hroom, hpending, hlinks, hrelinks]

/-! ## A step that keeps the links -/

section Step

variable {steps : Ledger} {w : Writer} {env : EndEnv}

-- the links the writer remembers are those of the committed steps
def LinksRemembered (steps : Ledger) (links : Table Path LinkRec) : Prop :=
  links.keys.Nodup ∧ ∀ path, (links.find? path).map LinkRec.target = steps.link path

theorem LinksRemembered.mem {links : Table Path LinkRec} (h : LinksRemembered steps links) {link : Path × LinkRec}
    (hlink : link ∈ links) : steps.link link.1 = some link.2.target := by
  rw [← h.2, (Table.find?_eq_some_iff h.1 link.1 link.2).mpr hlink]
  rfl

theorem LinksKept.link_entry (hkept : LinksKept steps w env) (hlinks : LinksRemembered steps w.core.links)
    {pe : PendingEntry} (hpe : pe ∈ (w.core.folded env).pending) (hk : pe.kind = .link) :
    pe ∈ w.core.pending ∨ ∃ link ∈ w.core.links, w.core.relinks link = true ∧ pe = relink link := by
  obtain ⟨attrs, hattrs, hpending⟩ := folded_pending hlinks.1 hkept.room
  rw [hpending, List.mem_append, List.mem_append] at hpe
  rcases hpe with (hpe | hpe) | hpe
  · exact .inl hpe
  · rw [hattrs pe hpe] at hk
    cases hk
  · obtain ⟨link, hlink, rfl⟩ := List.mem_map.mp hpe
    obtain ⟨hmem, hre⟩ := List.mem_filter.mp hlink
    exact .inr ⟨link, hmem, hre, rfl⟩

theorem LinksKept.create_entry (hkept : LinksKept steps w env) (hlinks : LinksRemembered steps w.core.links)
    {pe : PendingEntry} (hpe : pe ∈ (w.core.folded env).pending) (hk : pe.kind = .dsetCreate) :
    w.core.creates pe.path = true := by
  obtain ⟨attrs, hattrs, hpending⟩ := folded_pending hlinks.1 hkept.room
  rw [hpending, List.mem_append, List.mem_append] at hpe
  rcases hpe with (hpe | hpe) | hpe
  · exact (w.core.creates_iff _).mpr ⟨pe, hpe, hk, rfl⟩
  · rw [hattrs pe hpe] at hk
    cases hk
  · obtain ⟨link, -, rfl⟩ := List.mem_map.mp hpe
    cases hk

theorem LinksKept.captured (hkept : LinksKept steps w env) (hlinks : LinksRemembered steps w.core.links)
    {i : Nat} {pe : PendingEntry} (h : w.core.pending[i]? = some pe) : (w.core.folded env).pending[i]? = some pe := by
  obtain ⟨attrs, -, hpending⟩ := folded_pending hlinks.1 hkept.room
  have hi := (List.getElem?_eq_some_iff.mp h).1
  rw [hpending, List.append_assoc, List.getElem?_append_left hi]
  exact h

/-- A dataset the step creates is a dataset after it. -/
theorem LinksKept.node_created (hkept : LinksKept steps w env) {path : Path} (h : w.core.creates path = true) :
    Ledger.node (steps ++ [w.core.pending]) path = some .dataset := by
  obtain ⟨pe, hpe, hk, rfl⟩ := (w.core.creates_iff path).mp h
  exact hkept.once.node steps hpe (nodeAt_create hk)

/-- A path the step neither creates nor links is what it was. -/
theorem node_kept {path : Path} (hcreate : w.core.creates path = false) (hlink : w.core.linksItself path = false) :
    Ledger.node (steps ++ [w.core.pending]) path = steps.node path := by
  refine node_of_not_made steps fun pe hpe => ?_
  cases hnode : pe.nodeAt path with
  | none => rfl
  | some node =>
    obtain ⟨hpath, hk⟩ := nodeAt_eq_some hnode
    rcases hk with ⟨hk, -⟩ | ⟨hk, -⟩
    · rw [(w.core.creates_iff path).mpr ⟨pe, hpe, hk, hpath⟩] at hcreate
      cases hcreate
    · rw [(w.core.linksItself_iff path).mpr ⟨pe, hpe, hk, hpath⟩] at hlink
      cases hlink

/-- What a link entry says is what its path is after the step. -/
theorem LinksKept.node_linked (hkept : LinksKept steps w env) (hlinks : LinksRemembered steps w.core.links)
    {pe : PendingEntry} (hpe : pe ∈ (w.core.folded env).pending) (hk : pe.kind = .link) :
    Ledger.node (steps ++ [w.core.pending]) pe.path = some (.link pe.payload.target) := by
  rcases hkept.link_entry hlinks hpe hk with hpe | ⟨link, hlink, hre, rfl⟩
  · exact hkept.once.node steps hpe (nodeAt_link hk)
  · have hknown := hlinks.mem hlink
    unfold Core.relinks at hre
    rw [Bool.and_eq_true, Bool.not_eq_true'] at hre
    obtain ⟨target, hnode⟩ := hkept.current link.1 link.2.target hknown hre.1
    have hcreate : w.core.creates link.1 = false := by
      cases hc : w.core.creates link.1 with
      | false => rfl
      | true =>
        rw [hkept.node_created hc] at hnode
        cases hnode
    have hold := hnode
    rw [node_kept hcreate hre.2] at hold
    rw [link_of_node hold] at hknown
    cases hknown
    exact hnode

/-- No path is linked twice in the step. -/
theorem LinksKept.linked_once (hkept : LinksKept steps w env) (hlinks : LinksRemembered steps w.core.links) :
    (w.core.folded env).pending.Pairwise fun a b => a.kind = .link → b.kind = .link → a.path ≠ b.path := by
  obtain ⟨attrs, hattrs, hpending⟩ := folded_pending hlinks.1 hkept.room
  rw [hpending]
  refine List.pairwise_append.mpr ⟨List.pairwise_append.mpr ⟨?_, ?_, ?_⟩, ?_, ?_⟩
  · refine hkept.once.imp fun {a b} hab hk hk' hpath => ?_
    have hboth := hab a.path (by rw [nodeAt_link hk]; simp) (by rw [hpath, nodeAt_link hk']; simp)
    rw [hk] at hboth
    cases hboth.1
  · refine List.Pairwise.imp_of_mem (R := fun _ _ => True) (fun {a b} ha _ _ hk => ?_) (List.pairwise_of_forall fun _ _ => trivial)
    rw [hattrs a ha] at hk
    cases hk
  · intro a _ b hb _ hk'
    rw [hattrs b hb] at hk'
    cases hk'
  · rw [List.pairwise_map]
    have hkeys : w.core.links.Pairwise fun a b => a.1 ≠ b.1 := List.pairwise_map.mp hlinks.1
    exact (hkeys.filter _).imp fun hab _ _ => hab
  · intro a ha b hb hk _ hpath
    obtain ⟨link, hlink, rfl⟩ := List.mem_map.mp hb
    have hre := (List.mem_filter.mp hlink).2
    unfold Core.relinks at hre
    rw [Bool.and_eq_true, Bool.not_eq_true'] at hre
    rcases List.mem_append.mp ha with ha | ha
    · rw [(w.core.linksItself_iff link.1).mpr ⟨a, ha, hk, hpath⟩] at hre
      cases hre.2
    · rw [hattrs a ha] at hk
      cases hk

theorem LinksKept.linked_at (hkept : LinksKept steps w env) (hlinks : LinksRemembered steps w.core.links)
    {i j : Nat} {pe pe' : PendingEntry} (hi : (w.core.folded env).pending[i]? = some pe)
    (hj : (w.core.folded env).pending[j]? = some pe') (hk : pe.kind = .link) (hk' : pe'.kind = .link)
    (hpath : pe.path = pe'.path) : i = j := by
  have honce := List.pairwise_iff_getElem.mp (hkept.linked_once hlinks)
  obtain ⟨hilt, rfl⟩ := List.getElem?_eq_some_iff.mp hi
  obtain ⟨hjlt, rfl⟩ := List.getElem?_eq_some_iff.mp hj
  rcases Nat.lt_trichotomy i j with hlt | heq | hgt
  · exact absurd hpath (honce i j hilt hjlt hlt hk hk')
  · exact heq
  · exact absurd hpath.symm (honce j i hjlt hilt hgt hk' hk)

/-- A path of the stream is indexed by the step exactly if the step creates or links it. -/
theorem LinksKept.indexed (hkept : LinksKept steps w env) (hlinks : LinksRemembered steps w.core.links) {path : Path}
    {node : Node} (hnode : Ledger.node (steps ++ [w.core.pending]) path = some node) :
    path ∈ indexPaths ((w.core.folded env).pending.map PendingEntry.key)
      ↔ w.core.creates path = true ∨ ∃ pe ∈ (w.core.folded env).pending, pe.kind = .link ∧ pe.path = path := by
  simp only [indexPaths, List.mem_map, List.mem_filter]
  constructor
  · rintro ⟨key, ⟨⟨pe, hpe, rfl⟩, hindexed⟩, rfl⟩
    have hindexed : pe.kind.indexed = true := hindexed
    cases hk : pe.kind with
    | dsetCreate => exact .inl (hkept.create_entry hlinks hpe hk)
    | link => exact .inr ⟨pe, hpe, hk, rfl⟩
    | attr =>
      have hnone := hkept.attrs pe hpe hk
      rw [show (PendingEntry.key pe).2 = pe.path from rfl, hnone] at hnode
      cases hnode
    | dsetWrite =>
      rw [hk] at hindexed
      cases hindexed
    | group =>
      rw [hk] at hindexed
      cases hindexed
  · rintro (hcreate | ⟨pe, hpe, hk, rfl⟩)
    · obtain ⟨pe, hpe, hk, rfl⟩ := (w.core.creates_iff path).mp hcreate
      obtain ⟨i, hi⟩ := List.getElem?_of_mem hpe
      have hmem := List.mem_of_getElem? (hkept.captured hlinks hi)
      exact ⟨pe.key, ⟨⟨pe, hmem, rfl⟩, by rw [PendingEntry.key, hk]; rfl⟩, rfl⟩
    · exact ⟨pe.key, ⟨⟨pe, hpe, rfl⟩, by rw [PendingEntry.key, hk]; rfl⟩, rfl⟩

end Step

/-! ## Replaying it -/

/-- At step `k` every path of a chain opens the copy of its dataset that the index names. -/
def Follows (node : Path → Option Node) (idx : PathIndex) (file : StepFile) (k : Nat) : Prop :=
  ∀ path dset, LeadsTo node path dset → ∃ r s, pathIndexResolve idx dset k = some r
    ∧ pathIndexResolve idx path k = some s ∧ file.Opens s path (r, dset)

/-- The step of the writer `w`, replayed with success. -/
structure StepReplayed (steps : Ledger) (w : Writer) (env : EndEnv) (args : ReplayArgs) (st st' : Replay) : Prop where
  kept : LinksKept steps w env
  links : LinksRemembered steps w.core.links
  keys : args.manifest.entries.map Entry.key = (w.core.folded env).pending.map PendingEntry.key
  payload : ∀ (i : Nat) (pe : PendingEntry), (w.core.folded env).pending[i]? = some pe → args.payload i = pe.payload
  ok : replayManifest env.replay args st = .ok st'
  empty : st.core.file.ops args.manifest.physicalStep = []

section StepReplayed

variable {steps : Ledger} {w : Writer} {env : EndEnv} {args : ReplayArgs} {st st' : Replay}

theorem StepReplayed.entry (h : StepReplayed steps w env args st st') {i : Nat} {pe : PendingEntry}
    (hpe : (w.core.folded env).pending[i]? = some pe) :
    ∃ e, args.manifest.entries[i]? = some e ∧ e.kind = pe.kind ∧ e.path = pe.path := by
  have hkey := congrArg (·[i]?) h.keys
  simp only [List.getElem?_map, hpe, Option.map_some] at hkey
  obtain ⟨e, he, hkey⟩ := Option.map_eq_some_iff.mp hkey
  exact ⟨e, he, congrArg Prod.fst hkey, congrArg Prod.snd hkey⟩

theorem StepReplayed.pending (h : StepReplayed steps w env args st st') {i : Nat} {e : Entry}
    (he : args.manifest.entries[i]? = some e) :
    ∃ pe, (w.core.folded env).pending[i]? = some pe ∧ pe.kind = e.kind ∧ pe.path = e.path := by
  have hkey := congrArg (·[i]?) h.keys.symm
  simp only [List.getElem?_map, he, Option.map_some] at hkey
  obtain ⟨pe, hpe, hkey⟩ := Option.map_eq_some_iff.mp hkey
  exact ⟨pe, hpe, congrArg Prod.fst hkey, congrArg Prod.snd hkey⟩

/-- What resolves at the step after its replay. -/
theorem StepReplayed.resolve (h : StepReplayed steps w env args st st') (path : Path) :
    pathIndexResolve st'.core.pathIndex path args.manifest.physicalStep
      = if path ∈ indexPaths ((w.core.folded env).pending.map PendingEntry.key) then some args.manifest.physicalStep
        else pathIndexResolve st.core.pathIndex path args.manifest.physicalStep := by
  obtain ⟨c, hsteps, hc⟩ := steps_replayManifest env.replay args st path
  rw [h.ok, Outcome.state_ok] at hsteps
  rw [h.ok] at hc
  have hc : c = (indexPaths ((w.core.folded env).pending.map PendingEntry.key)).count path := by
    rw [hc rfl, Step.indexPaths, h.keys]
  rw [pathIndexResolve_replicate hsteps, hc]
  by_cases hmem : path ∈ indexPaths ((w.core.folded env).pending.map PendingEntry.key)
  · rw [if_neg (Nat.pos_iff_ne_zero.mp (List.count_pos_iff.mpr hmem)), if_pos hmem]
  · rw [if_pos (List.count_eq_zero.mpr hmem), if_neg hmem]

theorem StepReplayed.other (h : StepReplayed steps w env args st st') {k : Nat} (hk : k ≠ args.manifest.physicalStep) :
    st'.core.file.ops k = st.core.file.ops k := by
  have hworked := workedIn_replayManifest (fun k => k = args.manifest.physicalStep) env.replay args st rfl
  rw [h.ok, Outcome.state_ok] at hworked
  unfold StepFile.ops
  rw [hworked.1.same k hk]

/-- A path of the stream that the step neither creates nor links resolves as before. -/
theorem StepReplayed.resolve_kept (h : StepReplayed steps w env args st st') {path : Path} {node : Node}
    (hnode : Ledger.node (steps ++ [w.core.pending]) path = some node) (hcreate : w.core.creates path = false)
    (hlink : ∀ pe ∈ (w.core.folded env).pending, pe.kind = .link → pe.path ≠ path) :
    pathIndexResolve st'.core.pathIndex path args.manifest.physicalStep
      = pathIndexResolve st.core.pathIndex path args.manifest.physicalStep := by
  rw [h.resolve, if_neg]
  rw [h.kept.indexed h.links hnode]
  rintro (hc | ⟨pe, hpe, hk, hpath⟩)
  · rw [hcreate] at hc
    cases hc
  · exact hlink pe hpe hk hpath

theorem StepReplayed.resolve_made (h : StepReplayed steps w env args st st') {path : Path} {node : Node}
    (hnode : Ledger.node (steps ++ [w.core.pending]) path = some node)
    (hmade : w.core.creates path = true ∨ ∃ pe ∈ (w.core.folded env).pending, pe.kind = .link ∧ pe.path = path) :
    pathIndexResolve st'.core.pathIndex path args.manifest.physicalStep = some args.manifest.physicalStep := by
  rw [h.resolve, if_pos ((h.kept.indexed h.links hnode).mpr hmade)]

/-- A dataset that the step does not write resolves as before. -/
theorem StepReplayed.resolve_dataset (h : StepReplayed steps w env args st st') {dset : Path}
    (hnode : Ledger.node (steps ++ [w.core.pending]) dset = some .dataset) (hcreate : w.core.creates dset = false) :
    pathIndexResolve st'.core.pathIndex dset args.manifest.physicalStep
      = pathIndexResolve st.core.pathIndex dset args.manifest.physicalStep := by
  refine h.resolve_kept hnode hcreate fun pe hpe hk hpath => ?_
  rw [← hpath, h.kept.node_linked h.links hpe hk] at hnode
  cases hnode

/-- What could be opened before the step opens what it did, if the step did not write the dataset. -/
theorem StepReplayed.still_opens (h : StepReplayed steps w env args st st')
    (hold : Follows steps.node st.core.pathIndex st.core.file args.manifest.physicalStep) {path dset : Path}
    (hlead : LeadsTo steps.node path dset)
    (hnode : Ledger.node (steps ++ [w.core.pending]) dset = some .dataset) (hcreate : w.core.creates dset = false) :
    ∃ r s, pathIndexResolve st'.core.pathIndex dset args.manifest.physicalStep = some r
      ∧ pathIndexResolve st.core.pathIndex path args.manifest.physicalStep = some s
      ∧ st'.core.file.Opens s path (r, dset) := by
  obtain ⟨r, s, hr, hs, hopens⟩ := hold path dset hlead
  exact ⟨r, s, by rw [h.resolve_dataset hnode hcreate, hr], hs, hopens.fill h.empty fun k hk => h.other hk⟩

theorem StepReplayed.follows_dataset (h : StepReplayed steps w env args st st')
    (hold : Follows steps.node st.core.pathIndex st.core.file args.manifest.physicalStep) {path : Path}
    (hnode : Ledger.node (steps ++ [w.core.pending]) path = some .dataset) :
    ∃ r, pathIndexResolve st'.core.pathIndex path args.manifest.physicalStep = some r
      ∧ st'.core.file.Opens r path (r, path) := by
  cases hc : w.core.creates path with
  | true =>
    refine ⟨_, h.resolve_made hnode (.inl hc), ?_⟩
    obtain ⟨pe, hpe, hk, rfl⟩ := (w.core.creates_iff path).mp hc
    obtain ⟨i, hi⟩ := List.getElem?_of_mem hpe
    obtain ⟨e, he, hkind, hpath⟩ := h.entry (h.kept.captured h.links hi)
    obtain ⟨t, space, dcpl, hobject⟩ := dataset_made h.ok h.empty (List.mem_of_getElem? he) (hkind.trans hk)
    rw [hpath] at hobject
    exact .dataset hobject
  | false =>
    have hlink : w.core.linksItself path = false := by
      cases hl : w.core.linksItself path with
      | false => rfl
      | true =>
        obtain ⟨pe, hpe, hk, rfl⟩ := (w.core.linksItself_iff path).mp hl
        rw [h.kept.once.node steps hpe (nodeAt_link hk)] at hnode
        cases hnode
    have hwas : steps.node path = some .dataset := by
      rw [← hnode, node_kept hc hlink]
    obtain ⟨r, s, hr, hs, hopens⟩ := h.still_opens hold (.dataset hwas) hnode hc
    rw [h.resolve_dataset hnode hc] at hr ⊢
    rw [hr] at hs
    cases hs
    exact ⟨r, hr, hopens⟩

/-- Nothing replayed before a link takes its name. -/
theorem StepReplayed.name_free (h : StepReplayed steps w env args st st') {i : Nat} {pe : PendingEntry}
    (hi : (w.core.folded env).pending[i]? = some pe) (hk : pe.kind = .link) {j : Nat} {e' : Entry}
    (he' : args.manifest.entries[j]? = some e') (hbefore : e'.kind.late = false ∨ j < i) :
    entryName e'.key ≠ some pe.path := by
  intro hname
  obtain ⟨pe', hpe', hkind', hpath'⟩ := h.pending he'
  have hnode := h.kept.node_linked h.links (List.mem_of_getElem? hi) hk
  unfold entryName Entry.key at hname
  cases hk' : e'.kind with
  | dsetCreate =>
    rw [hk'] at hname
    have hcreate := h.kept.create_entry h.links (List.mem_of_getElem? hpe') (hkind'.trans hk')
    rw [hpath', show e'.path = pe.path from Option.some.inj hname] at hcreate
    rw [h.kept.node_created hcreate] at hnode
    cases hnode
  | link =>
    rw [hk'] at hname hbefore
    have hji := h.kept.linked_at h.links hpe' hi (hkind'.trans hk') hk (hpath'.trans (Option.some.inj hname))
    rcases hbefore with hearly | hlt
    · cases hearly
    · omega
  | attr =>
    rw [hk'] at hname hbefore
    rcases hbefore with hearly | hlt
    · cases hearly
    · have hpair := List.pairwise_iff_getElem.mp h.kept.free
      obtain ⟨hjlt, rfl⟩ := List.getElem?_eq_some_iff.mp hpe'
      obtain ⟨hilt, rfl⟩ := List.getElem?_eq_some_iff.mp hi
      refine hpair j i hjlt hilt hlt (hkind'.trans hk') hk ?_
      rw [hpath']
      exact hname
  | dsetWrite =>
    rw [hk'] at hname
    cases hname
  | group =>
    rw [hk'] at hname
    cases hname

/-- A link made in the step names a copy of its target that opens the chain's dataset. -/
theorem StepReplayed.follows_linked (h : StepReplayed steps w env args st st')
    (hold : Follows steps.node st.core.pathIndex st.core.file args.manifest.physicalStep) {i : Nat} {pe : PendingEntry}
    (hi : (w.core.folded env).pending[i]? = some pe) (hk : pe.kind = .link) {dset : Path} {r t : Nat}
    (hlead : LeadsTo (Ledger.node (steps ++ [w.core.pending])) pe.payload.target dset)
    (hr : pathIndexResolve st'.core.pathIndex dset args.manifest.physicalStep = some r)
    (ht : pathIndexResolve st'.core.pathIndex pe.payload.target args.manifest.physicalStep = some t)
    (hopens : st'.core.file.Opens t pe.payload.target (r, dset)) :
    st'.core.file.Opens args.manifest.physicalStep pe.path (r, dset) := by
  obtain ⟨htarget, hcreated, -⟩ := h.kept.made i pe hi hk
  obtain ⟨e, he, hkind, hpath⟩ := h.entry hi
  have hmem := List.mem_of_getElem? hi
  have hnode := h.kept.node_linked h.links hmem hk
  obtain ⟨hard, hpayload⟩ : ∃ hard, pe.payload = .link hard pe.payload.target := by
    cases hp : pe.payload with
    | bytes b =>
      rw [hp] at htarget
      exact absurd rfl htarget
    | link hard target => exact ⟨hard, rfl⟩
  obtain ⟨named, hobject, hin, hout⟩ := link_made h.ok h.empty he (hkind.trans hk)
    ((h.payload i pe hi).trans hpayload) htarget hcreated
    (by rw [hpath]; exact fun j e' he' hbefore => h.name_free hi hk he' hbefore)
  rw [hpath] at hobject
  obtain ⟨q, hq, hrest⟩ : ∃ q, named = some q ∧ st'.core.file.Opens q pe.payload.target (r, dset) := by
    by_cases hfirst : ∃ j e', args.manifest.entries[j]? = some e' ∧ e'.kind.indexed = true
        ∧ e'.path = pe.payload.target ∧ (e'.kind.late = false ∨ j ≤ i)
    · -- the target was indexed before the link's turn
      refine ⟨_, hin hfirst, ?_⟩
      obtain ⟨j, e', he', hindexed, hpath', -⟩ := hfirst
      have hmem' : pe.payload.target ∈ indexPaths ((w.core.folded env).pending.map PendingEntry.key) := by
        rw [← h.keys]
        unfold indexPaths
        exact List.mem_map.mpr ⟨e'.key, List.mem_filter.mpr ⟨List.mem_map_of_mem (List.mem_of_getElem? he'), hindexed⟩, hpath'⟩
      rw [h.resolve, if_pos hmem'] at ht
      cases ht
      exact hopens
    · have hlater : ∀ j e', args.manifest.entries[j]? = some e' → e'.kind.indexed = true → e'.path = pe.payload.target →
          e'.kind.late = true ∧ i < j := by
        intro j e' he' hindexed hpath'
        have hnot : ¬ (e'.kind.late = false ∨ j ≤ i) := fun hbefore => hfirst ⟨j, e', he', hindexed, hpath', hbefore⟩
        rw [not_or, Bool.not_eq_false, Nat.not_le] at hnot
        exact hnot
      rw [hout hlater]
      by_cases hmem' : pe.payload.target ∈ indexPaths ((w.core.folded env).pending.map PendingEntry.key)
      · -- it is linked in the step, but after the link: both name what the earlier copy leads to
        have hsome : ∃ node, Ledger.node (steps ++ [w.core.pending]) pe.payload.target = some node := by
          cases hlead with
          | dataset hnode' => exact ⟨_, hnode'⟩
          | link hnode' _ => exact ⟨_, hnode'⟩
        obtain ⟨node, hsome⟩ := hsome
        rcases (h.kept.indexed h.links hsome).mp hmem' with hcreate | ⟨pe', hpe', hk', hpath'⟩
        · obtain ⟨pc, hpc, hkc, hpathc⟩ := (w.core.creates_iff _).mp hcreate
          obtain ⟨j, hj⟩ := List.getElem?_of_mem hpc
          obtain ⟨e', he', hkind', hpath'⟩ := h.entry (h.kept.captured h.links hj)
          have hlate := (hlater j e' he' (by rw [hkind', hkc]; rfl) (hpath'.trans hpathc)).1
          rw [hkind', hkc] at hlate
          cases hlate
        · obtain ⟨j, hj⟩ := List.getElem?_of_mem hpe'
          obtain ⟨e', he', hkind', hpathe⟩ := h.entry hj
          have hij := (hlater j e' he' (by rw [hkind', hk']; rfl) (hpathe.trans hpath')).2
          have hnode' := h.kept.node_linked h.links hpe' hk'
          rw [hpath'] at hnode'
          rcases h.kept.chains pe.path pe.payload.target _ dset hnode hnode' hlead with ⟨hwas, hunwritten⟩ | hturn
          · obtain ⟨r', s, hr', hs, hrest⟩ := h.still_opens hold hwas hlead.dataset_at hunwritten
            rw [hr] at hr'
            cases hr'
            exact ⟨s, hs, hrest⟩
          · obtain ⟨a, b, pa, pb, hab, ha, hb, hka, hpa, hkb, hpb⟩ := hturn
            have haj := h.kept.linked_at h.links (h.kept.captured h.links ha) hj hka hk' (hpa.trans hpath'.symm)
            have hbi := h.kept.linked_at h.links (h.kept.captured h.links hb) hi hkb hk hpb
            omega
      · rw [h.resolve, if_neg hmem'] at ht
        exact ⟨t, ht, hopens⟩
  rw [hq] at hobject
  exact .link hobject hrest

/-- A link the step does not make again leads where it led, to a dataset the step does not write. -/
theorem StepReplayed.leads_unchanged (h : StepReplayed steps w env args st st') {path target dset : Path}
    (hnode : Ledger.node (steps ++ [w.core.pending]) path = some (.link target))
    (hlead : LeadsTo (Ledger.node (steps ++ [w.core.pending])) target dset)
    (hleft : ∀ pe ∈ (w.core.folded env).pending, pe.kind = .link → pe.path ≠ path) :
    LeadsTo steps.node path dset ∧ w.core.creates dset = false ∧ w.core.creates path = false := by
  have hcreate : w.core.creates path = false := by
    cases hc : w.core.creates path with
    | false => rfl
    | true =>
      rw [h.kept.node_created hc] at hnode
      cases hnode
  have hself : w.core.linksItself path = false := by
    cases hl : w.core.linksItself path with
    | false => rfl
    | true =>
      obtain ⟨pe, hpe, hk, hpath⟩ := (w.core.linksItself_iff path).mp hl
      obtain ⟨i, hi⟩ := List.getElem?_of_mem hpe
      exact absurd hpath (hleft pe (List.mem_of_getElem? (h.kept.captured h.links hi)) hk)
  have hwas : steps.node path = some (.link target) := by
    rw [← hnode, node_kept hcreate hself]
  cases hlead with
  | dataset htarget =>
    -- were the target written, the link would have been made again
    have hunwritten : w.core.creates target = false := by
      cases hc : w.core.creates target with
      | false => rfl
      | true =>
        have hknown := h.links.2 path
        rw [link_of_node hwas] at hknown
        obtain ⟨link, hfind, htarget'⟩ := Option.map_eq_some_iff.mp hknown
        obtain ⟨attrs, -, hpending⟩ := folded_pending h.links.1 h.kept.room
        have hre : w.core.relinks (path, link) = true := by
          unfold Core.relinks
          simp only
          rw [htarget', hc, hself]
          rfl
        have hmem : relink (path, link) ∈ (w.core.folded env).pending := by
          rw [hpending]
          exact List.mem_append_right _ (List.mem_map_of_mem
            (List.mem_filter.mpr ⟨(Table.find?_eq_some_iff h.links.1 path link).mp hfind, hre⟩))
        exact absurd rfl (hleft _ hmem rfl)
    have hunlinked : w.core.linksItself target = false := by
      cases hl : w.core.linksItself target with
      | false => rfl
      | true =>
        obtain ⟨pe, hpe, hk, hpath⟩ := (w.core.linksItself_iff target).mp hl
        rw [← hpath, h.kept.once.node steps hpe (nodeAt_link hk)] at htarget
        cases htarget
    refine ⟨.link hwas (.dataset ?_), hunwritten, hcreate⟩
    rw [← htarget, node_kept hunwritten hunlinked]
  | link htarget hrest =>
    rcases h.kept.chains path target _ dset hnode htarget (.link htarget hrest) with ⟨hleads, hunwritten⟩ | hturn
    · exact ⟨.link hwas hleads, hunwritten, hcreate⟩
    · obtain ⟨a, b, pa, pb, -, -, hb, -, -, hkb, hpb⟩ := hturn
      exact absurd hpb (hleft pb (List.mem_of_getElem? (h.kept.captured h.links hb)) hkb)

/-- One step: if links followed their targets before it, they do at the step. -/
theorem StepReplayed.follows (h : StepReplayed steps w env args st st')
    (hold : Follows steps.node st.core.pathIndex st.core.file args.manifest.physicalStep) :
    Follows (Ledger.node (steps ++ [w.core.pending])) st'.core.pathIndex st'.core.file args.manifest.physicalStep := by
  intro path dset hlead
  induction hlead with
  | dataset hnode =>
    obtain ⟨r, hr, hopens⟩ := h.follows_dataset hold hnode
    exact ⟨r, r, hr, hr, hopens⟩
  | @link path target dset hnode hlead ih =>
    obtain ⟨r, t, hr, ht, hopens⟩ := ih
    by_cases hlinked : ∃ pe ∈ (w.core.folded env).pending, pe.kind = .link ∧ pe.path = path
    · refine ⟨r, _, hr, h.resolve_made hnode (.inr hlinked), ?_⟩
      obtain ⟨pe, hpe, hk, rfl⟩ := hlinked
      obtain ⟨i, hi⟩ := List.getElem?_of_mem hpe
      rw [h.kept.node_linked h.links hpe hk] at hnode
      cases hnode
      exact h.follows_linked hold hi hk hlead hr ht hopens
    · have hleft : ∀ pe ∈ (w.core.folded env).pending, pe.kind = .link → pe.path ≠ path :=
        fun pe hpe hk hpath => hlinked ⟨pe, hpe, hk, hpath⟩
      obtain ⟨hwas, hunwritten, hcreate⟩ := h.leads_unchanged hnode hlead hleft
      obtain ⟨r', s, hr', hs, hopens'⟩ := h.still_opens hold hwas hlead.dataset_at hunwritten
      exact ⟨r', s, hr', by rw [h.resolve_kept hnode hcreate hleft, hs], hopens'⟩

end StepReplayed

end VolStream
