import Mathlib.Data.List.TakeWhile
import VolStream.Names.Keys
import VolStream.Writer.Replay

/-!
# The keys of attributes

`H5VL__stream_attr_path` files an attribute under its object's key, an `@` and its own name, and
every decoder of such a key (replay, the reader's attribute open, the folding of group attributes)
cuts it at the last `@`. The library allows `@` in object names and in attribute names, and `/` in
attribute names as well, and nothing escapes either.

A key is cut where it was joined exactly if the attribute's name has no `@`. What else it can be
mistaken for comes down to one question, when an attribute's key is the key of an object
(`attrPath_eq_key_iff`): asked of the attribute it says which objects share its key, asked of its
parent which attributes do.
-/

namespace VolStream

open Separated

/-- A name the library accepts for an attribute. -/
@[ext]
structure AttrName where
  chars : Path
  nonempty : chars ≠ []

-- `at + 1` in the three decoders
def attrName (path : Path) : Path := (path.reverse.takeWhile (· ≠ '@')).reverse

/-- A key cut at its last `@`, as the decoders do; nothing if there is none. -/
def attrSplit (path : Path) : Option (Path × Path) := (attrParent path).map (·, attrName path)

/-- What a key of an attribute is for: it gives back the object and the name, belongs to no other
attribute, and is not an object's. -/
structure AttrKeyFaithful (p : ObjPath) (n : AttrName) : Prop where
  splits : attrSplit (attrPath p.key n.chars) = some (p.key, n.chars)
  injective : ∀ (p' : ObjPath) (n' : AttrName),
    attrPath p'.key n'.chars = attrPath p.key n.chars → p' = p ∧ n' = n
  apart : ∀ q : ObjPath, attrPath p.key n.chars ≠ q.key

/-! ## Cutting at the last `@` -/

theorem attrName_not_mem (path : Path) : '@' ∉ attrName path := by
  intro h
  have hne := List.mem_takeWhile_imp (List.mem_reverse.1 h)
  simp at hne

theorem takeWhile_attrPath {name : Path} (h : '@' ∉ name) (parent : Path) :
    (attrPath parent name).reverse.takeWhile (· ≠ '@') = name.reverse := by
  have hname : ∀ c ∈ name.reverse, decide (c ≠ '@') = true := by
    intro c hc
    simpa using ne_of_mem_of_not_mem (List.mem_reverse.1 hc) h
  rw [attrPath, List.reverse_append, List.reverse_cons, List.append_assoc, List.singleton_append,
    List.takeWhile_append_of_pos hname]
  simp

theorem attrSplit_attrPath {name : Path} (h : '@' ∉ name) (parent : Path) :
    attrSplit (attrPath parent name) = some (parent, name) := by
  have hlength : (attrPath parent name).length = parent.length + (name.length + 1) := by simp [attrPath]
  have hparent : attrParent (attrPath parent name) = some parent := by
    simp only [attrParent, takeWhile_attrPath h, List.length_reverse, hlength]
    rw [if_neg (by omega), show parent.length + (name.length + 1) - name.length - 1 = parent.length by omega]
    simp [attrPath]
  rw [attrSplit, hparent, attrName, takeWhile_attrPath h]
  simp

theorem attrSplit_attrPath_iff {parent name : Path} :
    attrSplit (attrPath parent name) = some (parent, name) ↔ '@' ∉ name := by
  constructor
  · intro h
    obtain ⟨_, _, heq⟩ := Option.map_eq_some_iff.1 h
    have hname : attrName (attrPath parent name) = name := congrArg Prod.snd heq
    rw [← hname]
    exact attrName_not_mem _
  · intro h
    exact attrSplit_attrPath h parent

/-! ## When an attribute's key is an object's -/

-- the `@` continues the last link name of the parent, up to the first slash of the attribute's name
theorem splitOn_attrPath {p : ObjPath} {parts : List Path} {c name first : Path} {rest : List Path}
    (hp : p.parts = parts ++ [c]) (hname : name.splitOn '/' = first :: rest) :
    (attrPath p.key name).splitOn '/' = [] :: (parts ++ (c ++ '@' :: first) :: rest) := by
  have hparts : ∀ d ∈ parts, '/' ∉ d := fun d hd => p.no_slash d (by simp [hp, hd])
  have hkey : attrPath p.key name = joinWith '/' parts ++ '/' :: (c ++ '@' :: name) := by
    simp [attrPath, ObjPath.key, hp]
  have hlast : (c ++ '@' :: name).splitOn '/' = (c ++ '@' :: first) :: rest := by
    rw [splitOn_append_of_not_mem (p.no_slash c (by simp [hp])), List.splitOn_cons_eq_if_modifyHead, hname]
    simp
  rw [hkey, List.splitOn_append_cons_self, splitOn_joinWith hparts, hlast]
  rfl

theorem attrPath_eq_key_iff {p q : ObjPath} {name first : Path} {rest : List Path}
    (hname : name.splitOn '/' = first :: rest) :
    attrPath p.key name = q.key ↔
      ∃ parts c, p.parts = parts ++ [c] ∧ q.parts = parts ++ (c ++ '@' :: first) :: rest := by
  constructor
  · intro h
    rcases List.eq_nil_or_concat p.parts with hroot | ⟨parts, c, hp⟩
    · -- an object's key starts with a slash
      rw [ObjPath.key, ObjPath.key, hroot] at h
      cases hq : q.parts with
      | nil => simp [hq, attrPath] at h
      | cons d rest => simp [hq, attrPath] at h
    · rw [List.concat_eq_append] at hp
      refine ⟨parts, c, hp, ?_⟩
      have hsplit := splitOn_attrPath hp hname
      rw [h, ObjPath.key, splitOn_joinWith q.no_slash, List.cons.injEq] at hsplit
      exact hsplit.2
  · rintro ⟨parts, c, hp, hq⟩
    have hjoined : joinWith '/' (name.splitOn '/') = '/' :: name := joinWith_splitOn name
    rw [hname, joinWith_cons, List.cons.injEq] at hjoined
    simp [ObjPath.key, hp, hq, attrPath, ← hjoined.2]

/-- An attribute's key is no object's if its object is the root, or if a slash in its name is
followed by something no object is called. -/
theorem attrPath_apart_iff {p : ObjPath} {name : Path} :
    (∀ q : ObjPath, attrPath p.key name ≠ q.key) ↔
      p = .root ∨ ∃ c ∈ (name.splitOn '/').tail, named c = false := by
  obtain ⟨first, rest, hname⟩ := List.exists_cons_of_ne_nil (List.splitOn_ne_nil '/' name)
  rw [hname, List.tail_cons]
  constructor
  · intro hapart
    rcases List.eq_nil_or_concat p.parts with hroot | ⟨parts, c, hp⟩
    · exact .inl (ObjPath.ext hroot)
    · right
      by_contra! hrest
      rw [List.concat_eq_append] at hp
      -- walked as a name, the key drops none of its components, so it is the key of an object
      have hnamed : ∀ d ∈ parts ++ (c ++ '@' :: first) :: rest, named d = true := by
        intro d hd
        rcases List.mem_append.1 hd with hd | hd
        · exact p.named_of_mem d (by simp [hp, hd])
        · rcases List.mem_cons.1 hd with rfl | hd
          · cases c <;> simp [named]
          · simpa using hrest d hd
      have hparts : (ObjPath.ofName (attrPath p.key name)).parts = parts ++ (c ++ '@' :: first) :: rest := by
        rw [ObjPath.parts_ofName, splitOn_attrPath hp hname]
        rw [List.filter_cons_of_neg (by decide), List.filter_eq_self.2 hnamed]
      exact hapart _ ((attrPath_eq_key_iff hname).2 ⟨parts, c, hp, hparts⟩)
  · intro h q heq
    obtain ⟨parts, c, hp, hq⟩ := (attrPath_eq_key_iff hname).1 heq
    rcases h with rfl | ⟨d, hd, hnamed⟩
    · simp [ObjPath.root] at hp
    · have hnamed' := q.named_of_mem d (by simp [hq, hd])
      rw [hnamed] at hnamed'
      cases hnamed'

/-- An object's key is no attribute's if in none of its link names an `@` has a legal link name
in front. -/
theorem key_ne_attrPath_iff {p : ObjPath} :
    (∀ (p' : ObjPath) (name : Path), attrPath p'.key name ≠ p.key) ↔
      ∀ c ∈ p.parts, ∀ before behind, c = before ++ '@' :: behind → named before = false := by
  constructor
  · intro hapart c hc before behind hcut
    by_contra hnamed
    obtain ⟨parts, rest, hp⟩ := List.append_of_mem hc
    have hslash := p.no_slash c hc
    have hbefore : '/' ∉ before := fun h => hslash (by simp [hcut, h])
    let p' : ObjPath :=
      { parts := parts ++ [before]
        named_of_mem := by
          intro d hd
          rcases List.mem_append.1 hd with hd | hd
          · exact p.named_of_mem d (by simp [hp, hd])
          · rw [List.mem_singleton.1 hd]
            simpa using hnamed
        no_slash := by
          intro d hd
          rcases List.mem_append.1 hd with hd | hd
          · exact p.no_slash d (by simp [hp, hd])
          · rwa [List.mem_singleton.1 hd] }
    apply hapart p' (behind ++ joinWith '/' rest)
    simp [p', ObjPath.key, attrPath, hp, hcut]
  · intro hcut p' name heq
    obtain ⟨first, rest, hname⟩ := List.exists_cons_of_ne_nil (List.splitOn_ne_nil '/' name)
    obtain ⟨parts, c, hp', hp⟩ := (attrPath_eq_key_iff hname).1 heq
    have hfalse := hcut (c ++ '@' :: first) (by simp [hp]) c first rfl
    have htrue := p'.named_of_mem c (by simp [hp'])
    rw [hfalse] at htrue
    cases htrue

/-! ## Attributes sharing a key -/

theorem attrPath_eq_iff {p p' name name' : Path} (h : '@' ∉ name) :
    attrPath p' name' = attrPath p name ↔
      p' = p ∧ name' = name ∨ ∃ mid, attrPath p' mid = p ∧ name' = attrPath mid name := by
  constructor
  · intro heq
    rw [attrPath, attrPath, List.append_eq_append_iff] at heq
    rcases heq with ⟨mid, hp, hcut⟩ | ⟨mid, hp, hcut⟩
    · cases mid with
      | nil =>
        rw [List.nil_append, List.cons.injEq] at hcut
        exact .inl ⟨by simpa using hp.symm, hcut.2⟩
      | cons a mid =>
        rw [List.cons_append, List.cons.injEq] at hcut
        exact .inr ⟨mid, by rw [hp, attrPath, hcut.1], hcut.2⟩
    · cases mid with
      | nil =>
        rw [List.nil_append, List.cons.injEq] at hcut
        exact .inl ⟨by simpa using hp, hcut.2.symm⟩
      | cons a mid =>
        -- the other `@` would be inside `name`
        rw [List.cons_append, List.cons.injEq] at hcut
        exact absurd (by simp [hcut.2]) h
  · rintro (⟨rfl, rfl⟩ | ⟨mid, rfl, rfl⟩)
    · rfl
    · simp [attrPath]

theorem attrPath_injective_iff {p : ObjPath} {n : AttrName} (h : '@' ∉ n.chars) :
    (∀ (p' : ObjPath) (n' : AttrName), attrPath p'.key n'.chars = attrPath p.key n.chars → p' = p ∧ n' = n) ↔
      ∀ (p' : ObjPath) (name : Path), attrPath p'.key name ≠ p.key := by
  constructor
  · intro hinj p' mid hmid
    have hname : attrPath mid n.chars ≠ [] := by simp [attrPath]
    obtain ⟨-, hn⟩ := hinj p' ⟨attrPath mid n.chars, hname⟩ ((attrPath_eq_iff h).2 (.inr ⟨mid, hmid, rfl⟩))
    apply h
    rw [← hn]
    simp [attrPath]
  · intro hapart p' n' heq
    rcases (attrPath_eq_iff h).1 heq with ⟨hp, hn⟩ | ⟨mid, hmid, -⟩
    · exact ⟨ObjPath.key_injective hp, AttrName.ext hn⟩
    · exact absurd hmid (hapart p' mid)

/-! ## Faithful keys -/

/-- The attributes whose keys are faithful: the name has no `@`; and on any object but the root, a
slash in it is followed by an empty name or `.`, and what is in front of an `@` in a link name of
the object is empty or `.`. -/
structure AttrKeyClear (p : ObjPath) (n : AttrName) : Prop where
  no_at : '@' ∉ n.chars
  unnamed : p = .root ∨ ((∃ c ∈ (n.chars.splitOn '/').tail, named c = false) ∧
    ∀ c ∈ p.parts, ∀ before behind, c = before ++ '@' :: behind → named before = false)

theorem attrKeyFaithful_iff_clear {p : ObjPath} {n : AttrName} :
    AttrKeyFaithful p n ↔ AttrKeyClear p n := by
  constructor
  · intro h
    have hat : '@' ∉ n.chars := attrSplit_attrPath_iff.1 h.splits
    have hparent := key_ne_attrPath_iff.1 ((attrPath_injective_iff hat).1 h.injective)
    exact ⟨hat, (attrPath_apart_iff.1 h.apart).imp_right fun hname => ⟨hname, hparent⟩⟩
  · intro ⟨hat, hunnamed⟩
    have hparent : ∀ c ∈ p.parts, ∀ before behind, c = before ++ '@' :: behind → named before = false := by
      rcases hunnamed with rfl | ⟨-, hparent⟩
      · simp [ObjPath.root]
      · exact hparent
    exact
      { splits := attrSplit_attrPath_iff.2 hat
        injective := (attrPath_injective_iff hat).2 (key_ne_attrPath_iff.2 hparent)
        apart := attrPath_apart_iff.2 (hunnamed.imp_right And.left) }

/-- Attributes as keys: one is faithful exactly if it is clear of every other key. Where no
attribute name has an `@` all keys split and none is shared, and where no object name has one
either, none is an object's. -/
theorem attrKeys_exact (p : ObjPath) (n : AttrName) :
    (AttrKeyFaithful p n ↔ AttrKeyClear p n) ∧
      ('@' ∉ n.chars →
        attrSplit (attrPath p.key n.chars) = some (p.key, n.chars) ∧
        (∀ (p' : ObjPath) (n' : AttrName), '@' ∉ n'.chars →
          attrPath p'.key n'.chars = attrPath p.key n.chars → p' = p ∧ n' = n) ∧
        ∀ q : ObjPath, '@' ∉ q.key → attrPath p.key n.chars ≠ q.key) := by
  refine ⟨attrKeyFaithful_iff_clear, fun hat => ⟨attrSplit_attrPath hat p.key, ?_, ?_⟩⟩
  · intro p' n' hat' heq
    have hsplit := attrSplit_attrPath hat' p'.key
    rw [heq, attrSplit_attrPath hat, Option.some.injEq, Prod.mk.injEq] at hsplit
    exact ⟨ObjPath.key_injective hsplit.1.symm, AttrName.ext hsplit.2.symm⟩
  · intro q hq heq
    apply hq
    rw [← heq]
    simp [attrPath]

-- the attribute `units` of the dataset `/data`, and of the file itself
def unitsAttr : AttrName := ⟨"units".toList, by decide⟩

theorem rootUnits_faithful :
    attrPath (ObjPath.ofName "/data".toList).key unitsAttr.chars = "/data@units".toList ∧
      attrSplit "/data@units".toList = some ("/data".toList, "units".toList) ∧
      AttrKeyFaithful .root unitsAttr :=
  ⟨by decide, ((attrKeys_exact (.ofName "/data".toList) unitsAttr).2 (by decide)).1,
    (attrKeys_exact .root unitsAttr).1.2 ⟨by decide, .inl rfl⟩⟩

/-- Attribute `b@c` of `/a` and attribute `c` of `/a@b` have one key, which is cut into the second;
and the key of `units` on `/data` is that of the dataset `/data@units`. -/
theorem atSigns_collide :
    (ObjPath.ofName "/a".toList ≠ .ofName "/a@b".toList ∧
      attrPath (ObjPath.ofName "/a".toList).key "b@c".toList =
        attrPath (ObjPath.ofName "/a@b".toList).key "c".toList ∧
      attrSplit (attrPath (ObjPath.ofName "/a".toList).key "b@c".toList) =
        some ("/a@b".toList, "c".toList)) ∧
      attrPath (ObjPath.ofName "/data".toList).key "units".toList =
        (ObjPath.ofName "/data@units".toList).key := by
  decide

end VolStream
