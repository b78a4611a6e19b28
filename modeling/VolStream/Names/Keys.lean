import VolStream.Lib.Separated
import VolStream.Writer.Capture

/-!
# The keys names are filed under

Every handle carries the path it was opened by, and a name used through it becomes a manifest key
by `H5VL__stream_child_path` (datasets and groups, created or opened, on both sides of the stream)
or by `H5VL__stream_abs_path` (a link, a hard link's current name, `H5Lexists` on a reader). The
library has its own rule for what a name denotes: one that starts with a slash is walked from the
root and any other from the handle's group, runs of slashes count as one, and `.` is the group
itself.

`NameUse.Spelled` is when the key is the one of the object the name denotes. Both helpers leave
inner, trailing and repeated slashes and `.` in the key, and `H5VL__stream_child_path` takes an
absolute name as one relative to its handle, so the key is never shorter than the object's own and
has its length only for the plain spellings (`length_key_le`, `plainChain_of_length`).
-/

namespace VolStream

open Separated

/-! ## Objects and the names that denote them -/

/-- A name that counts as a step down the tree: not what is between two slashes, and not `.`. -/
def named (c : Path) : Bool := !c.isEmpty && c ≠ ['.']

/-- The link names from the root down to an object. -/
@[ext]
structure ObjPath where
  parts : List Path
  named_of_mem : ∀ c ∈ parts, named c = true
  no_slash : ∀ c ∈ parts, '/' ∉ c

namespace ObjPath

instance : DecidableEq ObjPath := fun _ _ => decidable_of_iff _ ObjPath.ext_iff.symm

def root : ObjPath := ⟨[], by simp, by simp⟩

/-- The key of the object: every link name behind one slash. The file's own is empty. -/
def key (p : ObjPath) : Path := joinWith '/' p.parts

theorem key_injective : Function.Injective key := fun p q h =>
  ObjPath.ext (joinWith_injective p.no_slash q.no_slash h)

-- the components of a name, walked from the root
def ofName (name : Path) : ObjPath where
  parts := (name.splitOn '/').filter named
  named_of_mem _ hc := (List.mem_filter.1 hc).2
  no_slash _ hc := not_mem_of_mem_splitOn (List.mem_filter.1 hc).1

theorem parts_ofName (name : Path) : (ofName name).parts = (name.splitOn '/').filter named := rfl

def append (p q : ObjPath) : ObjPath where
  parts := p.parts ++ q.parts
  named_of_mem c hc := (List.mem_append.1 hc).elim (p.named_of_mem c) (q.named_of_mem c)
  no_slash c hc := (List.mem_append.1 hc).elim (p.no_slash c) (q.no_slash c)

@[simp] theorem key_append (p q : ObjPath) : (p.append q).key = p.key ++ q.key := by
  simp [key, append]

end ObjPath

def IsAbsolute (name : Path) : Prop := name.head? = some '/'

instance (name : Path) : Decidable (IsAbsolute name) := inferInstanceAs (Decidable (_ = _))

/-- What the library takes `name` for when it is used through a handle on the group `base`. -/
def ObjPath.walk (base : ObjPath) (name : Path) : ObjPath :=
  if IsAbsolute name then .ofName name else base.append (.ofName name)

/-! ## Handles and uses of names -/

/-- `H5VL__stream_abs_path`. -/
def absPath (base name : Path) : Path := if IsAbsolute name then name else childPath base name

inductive PathHelper where
  | childPath
  | absPath
deriving DecidableEq, Repr

/-- A name used through a handle: the names its chain of groups was opened by, from the file on,
and the helper the operation goes through. -/
structure NameUse where
  groups : List Path
  name : Path
  helper : PathHelper
deriving DecidableEq, Repr

-- the path a chain of group handles ends up with; the file's is ""
def handlePath (groups : List Path) : Path := groups.foldl childPath []

def denoted (names : List Path) : ObjPath := names.foldl ObjPath.walk .root

/-- The key the connector computes. -/
def NameUse.key (u : NameUse) : Path :=
  match u.helper with
  | .childPath => childPath (handlePath u.groups) u.name
  | .absPath => VolStream.absPath (handlePath u.groups) u.name

/-- The object the name denotes. -/
def NameUse.denotes (u : NameUse) : ObjPath := denoted (u.groups ++ [u.name])

/-! ## Plain spellings -/

/-- Something between any two slashes and at both ends, and it is not `.`. -/
def Clean (s : Path) : Prop := ∀ c ∈ s.splitOn '/', named c = true

instance (s : Path) : Decidable (Clean s) := inferInstanceAs (Decidable (∀ c ∈ s.splitOn '/', _))

/-- `name` as `H5VL__stream_child_path` looks at it: past its leading slashes. -/
def stripped (name : Path) : Path := name.dropWhile (· = '/')

/-- The names of a chain are clean past their leading slashes, and only the first, used through
the file, is absolute. -/
@[mk_iff]
structure PlainChain (names : List Path) : Prop where
  clean : ∀ name ∈ names, Clean (stripped name)
  relative : ∀ name ∈ names.tail, ¬ IsAbsolute name

instance (names : List Path) : Decidable (PlainChain names) :=
  decidable_of_iff _ (plainChain_iff names).symm

/-- Where the key is that of the object. An absolute name that `H5VL__stream_abs_path` takes as it
stands has one slash in front and is clean behind it, wherever its handle is. -/
def NameUse.Spelled (u : NameUse) : Prop :=
  if u.helper = .absPath ∧ IsAbsolute u.name then Clean u.name.tail
  else PlainChain (u.groups ++ [u.name])

instance (u : NameUse) : Decidable u.Spelled :=
  inferInstanceAs (Decidable (if u.helper = .absPath ∧ IsAbsolute u.name then _ else _))

/-! ## One name -/

namespace ObjPath

theorem ofName_slash (s : Path) : ofName ('/' :: s) = ofName s := by
  ext1
  simp [ofName, List.splitOn_cons_eq_if_modifyHead, named]

theorem ofName_stripped (name : Path) : ofName (stripped name) = ofName name := by
  induction name with
  | nil => rfl
  | cons a name ih =>
    by_cases ha : a = '/'
    · subst ha
      rw [ofName_slash, ← ih]
      simp [stripped]
    · simp [stripped, ha]

theorem length_key_ofName_le (s : Path) : (ofName s).key.length ≤ s.length + 1 := by
  calc (ofName s).key.length ≤ (joinWith '/' (s.splitOn '/')).length := length_joinWith_filter_le ..
    _ = s.length + 1 := by rw [joinWith_splitOn, List.length_cons]

theorem clean_of_length_key {s : Path} (h : s.length + 1 ≤ (ofName s).key.length) : Clean s := by
  have hwhole : (joinWith '/' (s.splitOn '/')).length ≤ (joinWith '/' ((s.splitOn '/').filter named)).length := by
    rw [joinWith_splitOn]
    exact h
  exact all_of_length_joinWith_filter _ _ hwhole

theorem key_ofName_of_clean {s : Path} (h : Clean s) : (ofName s).key = '/' :: s := by
  rw [key, parts_ofName, List.filter_eq_self.2 h, joinWith_splitOn]

end ObjPath

theorem childPath_eq (parent name : Path) : childPath parent name = parent ++ '/' :: stripped name := rfl

theorem length_childPath (parent name : Path) :
    (childPath parent name).length = parent.length + ((stripped name).length + 1) := by
  simp [childPath_eq]

/-! ## Chains of names -/

@[simp] theorem handlePath_concat (names : List Path) (name : Path) :
    handlePath (names ++ [name]) = childPath (handlePath names) name := by
  simp [handlePath]

@[simp] theorem denoted_concat (names : List Path) (name : Path) :
    denoted (names ++ [name]) = (denoted names).walk name := by
  simp [denoted]

theorem handlePath_eq_nil {names : List Path} (h : (handlePath names).length = 0) : names = [] := by
  induction names using List.reverseRecOn with
  | nil => rfl
  | append_singleton names name _ =>
    rw [handlePath_concat, length_childPath] at h
    omega

theorem PlainChain.concat_iff {names : List Path} {name : Path} :
    PlainChain (names ++ [name]) ↔
      PlainChain names ∧ Clean (stripped name) ∧ (names = [] ∨ ¬ IsAbsolute name) := by
  cases names with
  | nil =>
    constructor
    · intro h
      exact ⟨⟨by simp, by simp⟩, h.clean name (by simp), .inl rfl⟩
    · intro ⟨_, hclean, _⟩
      exact ⟨by simpa using hclean, by simp⟩
  | cons first rest =>
    constructor
    · intro h
      have hrelative : ¬ IsAbsolute name := h.relative name (by simp)
      exact ⟨⟨fun n hn => h.clean n (List.mem_append_left _ hn),
        fun n hn => h.relative n (List.mem_append_left _ hn)⟩, h.clean name (by simp), .inr hrelative⟩
    · intro ⟨h, hclean, hrelative⟩
      have habs : ¬ IsAbsolute name := by simpa using hrelative
      constructor
      · intro n hn
        rcases List.mem_append.1 hn with hn | hn
        · exact h.clean n hn
        · rwa [List.mem_singleton.1 hn]
      · intro n hn
        rcases List.mem_append.1 hn with hn | hn
        · exact h.relative n hn
        · rwa [List.mem_singleton.1 hn]

theorem length_key_le (names : List Path) : (denoted names).key.length ≤ (handlePath names).length := by
  induction names using List.reverseRecOn with
  | nil => rfl
  | append_singleton names name ih =>
    have hname := ObjPath.length_key_ofName_le (stripped name)
    rw [ObjPath.ofName_stripped] at hname
    rw [denoted_concat, handlePath_concat, length_childPath, ObjPath.walk]
    split
    · omega
    · rw [ObjPath.key_append, List.length_append]
      omega

theorem plainChain_of_length {names : List Path}
    (h : (handlePath names).length ≤ (denoted names).key.length) : PlainChain names := by
  induction names using List.reverseRecOn with
  | nil => exact ⟨by simp, by simp⟩
  | append_singleton names name ih =>
    have hname := ObjPath.length_key_ofName_le (stripped name)
    have hnames := length_key_le names
    have hclean := ObjPath.clean_of_length_key (s := stripped name)
    rw [ObjPath.ofName_stripped] at hname hclean
    rw [denoted_concat, handlePath_concat, length_childPath, ObjPath.walk] at h
    rw [PlainChain.concat_iff]
    by_cases habs : IsAbsolute name
    · -- an absolute name drops the whole handle path, so there was none
      rw [if_pos habs] at h
      have hnil : names = [] := handlePath_eq_nil (by omega)
      subst hnil
      exact ⟨⟨by simp, by simp⟩, hclean (by omega), .inl rfl⟩
    · rw [if_neg habs, ObjPath.key_append, List.length_append] at h
      exact ⟨ih (by omega), hclean (by omega), .inr habs⟩

theorem PlainChain.handlePath_eq {names : List Path} (h : PlainChain names) :
    handlePath names = (denoted names).key := by
  induction names using List.reverseRecOn with
  | nil => rfl
  | append_singleton names name ih =>
    obtain ⟨hnames, hclean, hroot⟩ := PlainChain.concat_iff.1 h
    have hname := ObjPath.key_ofName_of_clean hclean
    rw [ObjPath.ofName_stripped] at hname
    rw [denoted_concat, handlePath_concat, childPath_eq, ih hnames, ← hname, ObjPath.walk]
    split
    next habs =>
      have hnil : names = [] := hroot.resolve_right (not_not_intro habs)
      subst hnil
      rfl
    next => rw [ObjPath.key_append]

/-! ## Uses of names -/

namespace NameUse

variable {u v : NameUse}

theorem key_absolute (hhelper : u.helper = .absPath) (habs : IsAbsolute u.name) : u.key = u.name := by
  simp [key, hhelper, VolStream.absPath, habs]

theorem key_joined (h : ¬ (u.helper = .absPath ∧ IsAbsolute u.name)) :
    u.key = handlePath (u.groups ++ [u.name]) := by
  rw [handlePath_concat, key]
  split
  · rfl
  · next hhelper => rw [VolStream.absPath, if_neg fun habs => h ⟨hhelper, habs⟩]

theorem key_eq_iff_clean (hhelper : u.helper = .absPath) (habs : IsAbsolute u.name) :
    u.key = u.denotes.key ↔ Clean u.name.tail := by
  have hname : u.name = '/' :: u.name.tail := List.eq_cons_of_mem_head? habs
  have hdenotes : u.denotes = .ofName u.name.tail := by
    rw [denotes, denoted_concat, ObjPath.walk, if_pos habs, hname, ObjPath.ofName_slash, List.tail_cons]
  rw [key_absolute hhelper habs, hdenotes]
  constructor
  · intro h
    apply ObjPath.clean_of_length_key
    rw [← h, hname]
    simp
  · intro h
    rw [ObjPath.key_ofName_of_clean h, ← hname]

/-- The key is that of the denoted object exactly for the plain spellings. -/
theorem key_eq_iff_spelled : u.key = u.denotes.key ↔ u.Spelled := by
  by_cases h : u.helper = .absPath ∧ IsAbsolute u.name
  · rw [Spelled, if_pos h, key_eq_iff_clean h.1 h.2]
  · rw [Spelled, if_neg h, key_joined h, denotes]
    constructor
    · intro heq
      exact plainChain_of_length (le_of_eq (congrArg List.length heq))
    · intro hplain
      exact hplain.handlePath_eq

/-- Names as keys: a use is filed under its object's key, and under no other object's, exactly if
it is plainly spelled; and plainly spelled uses have one key exactly if they denote one object. -/
theorem key_faithful_iff (u : NameUse) :
    ((∀ p : ObjPath, u.key = p.key ↔ u.denotes = p) ↔ u.Spelled) ∧
      ∀ v : NameUse, u.Spelled → v.Spelled → (u.key = v.key ↔ u.denotes = v.denotes) := by
  constructor
  · constructor
    · intro h
      exact key_eq_iff_spelled.1 ((h u.denotes).2 rfl)
    · intro h p
      rw [key_eq_iff_spelled.2 h]
      exact ObjPath.key_injective.eq_iff
  · intro v hu hv
    rw [key_eq_iff_spelled.2 hu, key_eq_iff_spelled.2 hv]
    exact ObjPath.key_injective.eq_iff

end NameUse

-- `H5Dcreate2(grp, "sub")` and `H5Dopen2(file, "/grp/sub")`
def incremental : NameUse := ⟨["grp".toList], "sub".toList, .childPath⟩

def oneShot : NameUse := ⟨[], "/grp/sub".toList, .childPath⟩

theorem oneShot_finds_incremental :
    (incremental.Spelled ∧ oneShot.Spelled) ∧ incremental.key = oneShot.key := by
  have hincremental : incremental.Spelled := by decide
  have honeShot : oneShot.Spelled := by decide
  exact ⟨⟨hincremental, honeShot⟩,
    ((NameUse.key_faithful_iff incremental).2 oneShot hincremental honeShot).2 (by decide)⟩

/-- `H5Dcreate2(g, "/x")`, with `g` the group `/g`: the dataset is `/x`, as through the file, and
it is filed under the key of `/g/x`. -/
theorem absoluteName_aliases :
    let u : NameUse := ⟨["g".toList], "/x".toList, .childPath⟩
    let viaFile : NameUse := ⟨[], "/x".toList, .childPath⟩
    let inGroup : NameUse := ⟨["g".toList], "x".toList, .childPath⟩
    (u.denotes = viaFile.denotes ∧ u.key ≠ viaFile.key) ∧
      u.denotes ≠ inGroup.denotes ∧ u.key = inGroup.key := by
  decide

end VolStream
