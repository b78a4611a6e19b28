import VolStream.Space.Clipping
import VolStream.Writer.Refusals

/-!
# What a capture reads of the caller's buffer

A captured write takes its element count from the file selection and its elements from the memory selection.
HDF5 refuses a write whose two selections differ in size. The gather loop of `H5VL__stream_gather_mem` refuses
one too, but it is not always reached: an empty file selection and a memory dataspace with everything selected
are taken as they come. Here is exactly for which pairs a capture is accepted only at equal sizes and reads
selected elements only.
-/

namespace VolStream

open RowMajor

/-! ## Reads -/

/-- The elements the gather loop copies, also those before it refuses. -/
def gatherReads (nElem : Nat) : List Run → Nat → List Nat
  | [], _ => []
  | r :: rs, done => if done + r.count > nElem then [] else r.elems ++ gatherReads nElem rs (done + r.count)

/-- The elements `H5VL__stream_gather_mem` reads. -/
def memReads (memSpace : Dataspace) (nElem : Nat) : List Nat :=
  if memSelIsPacked (some memSpace) nElem then List.range nElem
  else match spaceFlatRuns memSpace maxPushRuns with
    | none => []
    | some runs => gatherReads nElem runs 0

/-- The elements a captured write reads: `H5VL__stream_vl_serialize` walks the leading ones. -/
def captureReads (arg : WriteArg) (memSpace : Dataspace) (nElem : Nat) : List Nat :=
  if 2 ^ 63 ≤ nElem ∨ nElem = 0 then []
  else if arg.memType.vlKind ≠ .none then
    if memSelIsPacked (some memSpace) nElem then List.range nElem else []
  else memReads memSpace nElem

theorem take_drop_congr {α : Type} {buf buf' : List α} {start count : Nat}
    (h : ∀ k ∈ List.range' start count, buf[k]? = buf'[k]?) :
    (buf.drop start).take count = (buf'.drop start).take count := by
  apply List.ext_getElem?
  intro i
  rw [List.getElem?_take, List.getElem?_take]
  by_cases hi : i < count
  · rw [if_pos hi, if_pos hi, List.getElem?_drop, List.getElem?_drop]
    exact h _ (by rw [List.mem_range'_1]; omega)
  · rw [if_neg hi, if_neg hi]

theorem gatherRuns_congr {α : Type} {buf buf' : List α} {nElem : Nat} {runs : List Run} {done : Nat}
    {out : List α} (h : ∀ k ∈ gatherReads nElem runs done, buf[k]? = buf'[k]?) :
    gatherRuns buf nElem runs done out = gatherRuns buf' nElem runs done out := by
  induction runs generalizing done out with
  | nil => rfl
  | cons r rs ih =>
    unfold gatherRuns
    unfold gatherReads at h
    by_cases hover : done + r.count > nElem
    · rw [if_pos hover, if_pos hover]
    · rw [if_neg hover] at h
      rw [if_neg hover, if_neg hover, take_drop_congr fun k hk => h k (List.mem_append_left _ hk)]
      exact ih fun k hk => h k (List.mem_append_right _ hk)

/-- The captured payload depends on the elements read and no others. -/
theorem gatherMem_congr {α : Type} {buf buf' : List α} {memSpace : Dataspace} {nElem : Nat}
    (h : ∀ k ∈ memReads memSpace nElem, buf[k]? = buf'[k]?) :
    gatherMem buf (some memSpace) nElem = gatherMem buf' (some memSpace) nElem := by
  unfold gatherMem
  unfold memReads at h
  split
  · rename_i hpacked
    rw [if_pos hpacked, List.range_eq_range'] at h
    have hsame := take_drop_congr h
    rw [List.drop_zero, List.drop_zero] at hsame
    rw [hsame]
  · rename_i hpacked
    rw [if_neg hpacked] at h
    cases hruns : spaceFlatRuns memSpace maxPushRuns with
    | none => simp only [hruns]
    | some runs =>
      rw [hruns] at h
      simp only [hruns]
      exact gatherRuns_congr h

theorem mem_of_mem_gatherReads {nElem : Nat} {runs : List Run} {done k : Nat}
    (h : k ∈ gatherReads nElem runs done) : ∃ r ∈ runs, k ∈ r.elems := by
  induction runs generalizing done with
  | nil => cases h
  | cons r rs ih =>
    unfold gatherReads at h
    split at h
    · cases h
    · rcases List.mem_append.mp h with hr | hrs
      · exact ⟨r, List.mem_cons_self, hr⟩
      · obtain ⟨r', hr', hk⟩ := ih hrs
        exact ⟨r', List.mem_cons_of_mem _ hr', hk⟩

/-- The gather loop accepts runs of `nElem` elements. -/
theorem isSome_gatherRuns_iff {α : Type} (buf : List α) (nElem : Nat) (runs : List Run) (done : Nat) (out : List α) :
    (gatherRuns buf nElem runs done out).isSome = true ↔ done + (runs.flatMap Run.elems).length = nElem := by
  induction runs generalizing done out with
  | nil =>
    unfold gatherRuns
    by_cases hdone : done = nElem
    · simp [hdone]
    · simp [hdone]
  | cons r rs ih =>
    have hlen : ((r :: rs).flatMap Run.elems).length = r.count + (rs.flatMap Run.elems).length := by
      rw [List.flatMap_cons, List.length_append, Run.elems, List.length_range']
    unfold gatherRuns
    rw [hlen]
    by_cases hover : done + r.count > nElem
    · rw [if_pos hover]
      exact iff_of_false (by simp) (by omega)
    · rw [if_neg hover, ih]
      omega

/-! ## Sizes -/

theorem length_boxFlat {ds bs es : List Nat} (h : BoxIn ds bs es) :
    (boxFlat ds bs es).length = (List.zipWith (fun s e => e + 1 - s) bs es).prod := by
  induction h with
  | nil => rfl
  | @cons d b e ds bs es hbe hed hbox ih =>
    rw [boxFlat, List.zipWith_cons_cons, List.prod_cons, ← ih]
    simp [List.length_flatMap]

/-- A dataspace a write can be captured with: everything selected, or a hyperslab. -/
structure Dataspace.Regular (s : Dataspace) : Prop where
  wellFormed : s.WellFormed
  sel : s.sel = .all ∨ ∃ blocks, s.sel = .hyperslab blocks

/-- The blocks of a hyperslab list as many elements as HDF5 counts. -/
theorem length_blocks {dims : List Nat} {blocks : List Block} (h : ∀ b ∈ blocks, BoxIn dims b.start b.stop) :
    (blocks.flatMap fun b => boxFlat dims b.start b.stop).length =
      Dataspace.npoints ⟨.simple dims, .hyperslab blocks⟩ := by
  rw [List.length_flatMap]
  exact congrArg List.sum (List.map_congr_left fun b hb => length_boxFlat (h b hb))

/-- A hyperslab is one of an extent with dimensions. -/
theorem Dataspace.Regular.hyperslab {s : Dataspace} (h : s.Regular) (hall : s.sel ≠ .all) :
    ∃ dims blocks, s = ⟨.simple dims, .hyperslab blocks⟩ := by
  obtain ⟨extent, sel⟩ := s
  obtain ⟨hwf, hsel⟩ := h
  rcases hsel with hsel | ⟨blocks, hsel⟩
  · exact absurd hsel hall
  · cases hsel
    cases extent with
    | null => rcases hwf with h | h <;> cases h
    | scalar => rcases hwf with h | h <;> cases h
    | simple dims => exact ⟨dims, blocks, rfl⟩

theorem length_spaceFlatRuns {s : Dataspace} (h : s.Regular) (hall : s.sel ≠ .all) {maxRuns : Nat} {runs : List Run}
    (hruns : spaceFlatRuns s maxRuns = some runs) : (runs.flatMap Run.elems).length = s.npoints := by
  obtain ⟨dims, blocks, rfl⟩ := h.hyperslab hall
  have hwf := h.wellFormed
  rcases spaceFlatRuns_elems hwf.valid hruns with ⟨hsel, -⟩ | ⟨blocks', hsel, helems⟩
  · exact absurd hsel hall
  · cases hsel
    rw [helems]
    exact length_blocks hwf.2.2.1

/-- A selection has no more elements than the extent. -/
theorem npoints_le_extent {s : Dataspace} (h : s.Regular) : s.npoints ≤ s.extent.npoints := by
  by_cases hall : s.sel = .all
  · rw [Dataspace.npoints, hall]
  · obtain ⟨dims, blocks, rfl⟩ := h.hyperslab hall
    have hbox := h.wellFormed.2.2.1
    have hsub : (blocks.flatMap fun b => boxFlat dims b.start b.stop) ⊆ List.range dims.prod := by
      intro k hk
      obtain ⟨b, hb, hk⟩ := List.mem_flatMap.mp hk
      exact List.mem_range.mpr (lt_prod_of_mem_boxFlat (hbox b hb) k hk)
    have hle := ((nodup_blocks hbox h.wellFormed.2.2.2.1).subperm hsub).length_le
    rw [length_blocks hbox, List.length_range] at hle
    exact hle

theorem selectsFlat_of_mem_runs {s : Dataspace} (h : s.Regular) {maxRuns : Nat} {runs : List Run}
    (hruns : spaceFlatRuns s maxRuns = some runs) {k : Nat} (hk : ∃ r ∈ runs, k ∈ r.elems) :
    s.selectsFlat k = true :=
  (((runsOf_of_some h.wellFormed h.sel hruns).covers k).mp hk).1

/-- Everything selected is every element of the extent. -/
theorem selectsFlat_all {extent : Extent} {k : Nat} (h : k < extent.npoints) :
    Dataspace.selectsFlat ⟨extent, .all⟩ k = true := by
  unfold Dataspace.selectsFlat
  rw [Bool.and_eq_true, decide_eq_true_eq]
  refine ⟨h, ?_⟩
  cases extent with
  | null => exact absurd h (Nat.not_lt_zero k)
  | scalar => rfl
  | simple dims => exact inExtent_unflat h

/-- A larger budget answers the same. -/
theorem spaceFlatRuns_mono {s : Dataspace} (h : s.Regular) (hall : s.sel ≠ .all) {maxRuns maxRuns' : Nat}
    (hle : maxRuns ≤ maxRuns') {runs : List Run} (hruns : spaceFlatRuns s maxRuns = some runs) :
    spaceFlatRuns s maxRuns' = some runs := by
  obtain ⟨dims, blocks, rfl⟩ := h.hyperslab hall
  have hwf := h.wellFormed
  obtain ⟨d, ds, rfl⟩ := List.exists_cons_of_ne_nil hwf.1
  obtain ⟨b, bs, rfl⟩ := List.exists_cons_of_ne_nil (l := blocks) (by
    rintro rfl
    exact hwf.2.2.2.2.2 rfl)
  unfold spaceFlatRuns spaceFlatRunsRange at hruns ⊢
  split at hruns
  · cases hruns
  · obtain ⟨acc, hacc, hrev⟩ := Option.map_eq_some_iff.mp hruns
    have hmore := (addBlocks_budgeted (d :: ds) 0 uint64Max (b :: bs)).mono (s := []) (Nat.zero_le _) hle hacc
    rw [if_neg (by omega)]
    simp only [hmore, Option.map_some, hrev]

/-! ## Packed and gathered -/

/-- A packed hyperslab is one run, of the leading elements. -/
theorem run_of_packed {m : Dataspace} {nElem : Nat} (hall : m.sel ≠ .all)
    (hpacked : memSelIsPacked (some m) nElem = true) : spaceFlatRuns m 1 = some [⟨0, nElem⟩] := by
  unfold memSelIsPacked at hpacked
  simp only [if_neg hall] at hpacked
  split at hpacked
  · rename_i run hrun
    rw [decide_eq_true_eq] at hpacked
    rw [hrun, ← hpacked.1, ← hpacked.2]
  · cases hpacked

/-- What is read of a hyperslab, or of an extent that is large enough, is selected. -/
theorem selectsFlat_of_mem_memReads {m : Dataspace} (h : m.Regular) {nElem : Nat}
    (hsize : nElem ≤ m.npoints ∨ m.sel ≠ .all) {k : Nat} (hk : k ∈ memReads m nElem) : m.selectsFlat k = true := by
  unfold memReads at hk
  split at hk
  · rename_i hpacked
    rw [List.mem_range] at hk
    by_cases hall : m.sel = .all
    · obtain ⟨extent, sel⟩ := m
      cases hall
      exact selectsFlat_all (hk.trans_le (hsize.resolve_right fun hne => hne rfl))
    · refine selectsFlat_of_mem_runs h (run_of_packed hall hpacked) ⟨_, List.mem_singleton_self _, ?_⟩
      show k ∈ List.range' 0 nElem
      rw [List.mem_range'_1]
      omega
  · split at hk
    · cases hk
    · rename_i runs hruns
      exact selectsFlat_of_mem_runs h hruns (mem_of_mem_gatherReads hk)

theorem selectsFlat_of_mem_captureReads {arg : WriteArg} {m : Dataspace} (h : m.Regular) {nElem : Nat}
    (hsize : nElem ≤ m.npoints ∨ m.sel ≠ .all) {k : Nat} (hk : k ∈ captureReads arg m nElem) :
    m.selectsFlat k = true := by
  unfold captureReads at hk
  split at hk
  · cases hk
  · split at hk
    · split at hk
      · rename_i hpacked
        exact selectsFlat_of_mem_memReads h hsize (by rw [memReads, if_pos hpacked]; exact hk)
      · cases hk
    · exact selectsFlat_of_mem_memReads h hsize hk

/-- A hyperslab is gathered when it has the elements asked for, and runs enough for them. -/
theorem isSome_gatherMem_iff {α : Type} (buf : List α) {m : Dataspace} (h : m.Regular) (hall : m.sel ≠ .all)
    (nElem : Nat) : (gatherMem buf (some m) nElem).isSome = true ↔
      m.npoints = nElem ∧ (spaceFlatRuns m maxPushRuns).isSome = true := by
  unfold gatherMem
  split
  · rename_i hpacked
    have hrun := run_of_packed hall hpacked
    have hlen := length_spaceFlatRuns h hall hrun
    rw [spaceFlatRuns_mono h hall (by decide) hrun]
    rw [List.flatMap_singleton, Run.elems, List.length_range'] at hlen
    exact iff_of_true rfl ⟨hlen.symm, rfl⟩
  · cases hruns : spaceFlatRuns m maxPushRuns with
    | none => simp [hruns]
    | some runs =>
      have hlen := length_spaceFlatRuns h hall hruns
      simp only [hruns, isSome_gatherRuns_iff, hlen, Option.isSome_some, and_true, Nat.zero_add]

/-- A capture of a hyperslab that is accepted took as many elements as it has. -/
theorem npoints_of_capturePayload {arg : WriteArg} {m : Dataspace} (h : m.Regular) (hall : m.sel ≠ .all)
    {nElem : Nat} (hne : nElem ≠ 0) {payload : Payload} (hpayload : capturePayload arg m nElem = some payload) :
    m.npoints = nElem ∧ (spaceFlatRuns m maxPushRuns).isSome = true := by
  have hgather : (gatherMem arg.buf (some m) nElem).isSome = true := by
    unfold capturePayload at hpayload
    rw [if_neg hne] at hpayload
    split at hpayload
    · cases hpayload
    · split at hpayload
      · split at hpayload
        · rename_i hpacked
          rw [gatherMem, if_pos hpacked]
          rfl
        · cases hpayload
      · obtain ⟨elems, helems, -⟩ := Option.map_eq_some_iff.mp hpayload
        rw [helems]
        rfl
  exact (isSome_gatherMem_iff arg.buf h hall nElem).mp hgather

/-! ## Captured writes -/

/-- The file selection the caller means: `H5S_ALL` is the whole extent of the dataset. The connector takes the
create's dataspace, with the selection it was created with. -/
def fileMeant (file : Option Dataspace) (space : Dataspace) : Dataspace := file.getD ⟨space.extent, .all⟩

/-- The memory selection the caller means: `H5S_ALL` is the file selection. -/
def memMeant (mem file : Option Dataspace) (space : Dataspace) : Dataspace := mem.getD (fileMeant file space)

/-- The elements read by a write to the dataset of `ce`. -/
def writeReads (arg : WriteArg) (ce : PendingEntry) : List Nat :=
  if arg.memType.unsafeToCapture then []
  else
    let fspace := resolveSpace arg.fileSpace ce.space
    captureReads arg (resolveSpace arg.memSpace fspace) fspace.npoints

/-- Every write with this pair of selections to a dataset of this dataspace, from a buffer as large as the memory
dataspace: it is accepted only if the two select equally many elements, and reads selected ones only. -/
def CapturesSelected (mem file : Option Dataspace) (space : Dataspace) : Prop :=
  ∀ (w : Writer) (arg : WriteArg) (o : Wrapper) (ce : PendingEntry),
    arg.memSpace = mem → arg.fileSpace = file → arg.buf.length = (memMeant mem file space).extent.npoints →
    w.wrappers arg.handle = some o → entryFor w.core .dsetCreate o arg.under = some ce → ce.space = space →
      ((captureWrite arg w).isOk = true → (memMeant mem file space).npoints = (fileMeant file space).npoints) ∧
        ∀ k ∈ writeReads arg ce, (memMeant mem file space).selectsFlat k = true

/-- The pairs for which that holds. The memory selection is `H5S_ALL`; or it has as many elements as the file
selection; or the gather loop gets to see it and refuses it; or HDF5 counts the file selection as negative. -/
def SelectionsAgree (mem file : Option Dataspace) (space : Dataspace) : Prop :=
  ∀ m, mem = some m →
    m.npoints = (fileMeant file space).npoints ∨
      (m.sel ≠ .all ∧ (resolveSpace file space).npoints ≠ 0 ∧
        (m.npoints ≠ (resolveSpace file space).npoints ∨ spaceFlatRuns m maxPushRuns = none)) ∨
      2 ^ 63 ≤ (resolveSpace file space).npoints

/-- The selection the connector takes for the file's has no more elements than the one meant. -/
theorem npoints_resolveSpace_le (file : Option Dataspace) {space : Dataspace} (hspace : space.Regular) :
    (resolveSpace file space).npoints ≤ (fileMeant file space).npoints := by
  cases file with
  | none => exact npoints_le_extent hspace
  | some f => exact Nat.le_refl _

theorem selectsFlat_extent {s : Dataspace} {k : Nat} (h : s.selectsFlat k = true) :
    Dataspace.selectsFlat ⟨s.extent, .all⟩ k = true := by
  unfold Dataspace.selectsFlat at h
  rw [Bool.and_eq_true, decide_eq_true_eq] at h
  exact selectsFlat_all h.1

theorem payload_of_captureWrite {arg : WriteArg} {w : Writer} {o : Wrapper} {ce : PendingEntry}
    (ho : w.wrappers arg.handle = some o) (hce : entryFor w.core .dsetCreate o arg.under = some ce)
    (hok : (captureWrite arg w).isOk = true) : ∃ payload, writePayload arg ce = some payload := by
  cases hidx : stepIndex w.core .dsetCreate o arg.under with
  | none =>
    rw [entryFor_of_stepIndex_none hidx] at hce
    cases hce
  | some p =>
    obtain ⟨fs, idx⟩ := p
    have hentry := (stepIndex_entry hidx).1.trans hce
    rcases captureWrite_of_entry ho hidx hentry with ⟨-, hres⟩ | ⟨htaken, -⟩
    · rw [hres] at hok
      cases hok
    · by_contra hnone
      exact htaken (.inr fun payload hpayload => absurd ⟨payload, hpayload⟩ hnone)

theorem capturesSelected_of_agree {mem file : Option Dataspace} {space : Dataspace} (hspace : space.Regular)
    (hmem : ∀ m, mem = some m → m.Regular) (hfile : ∀ f, file = some f → f.Regular)
    (hagree : SelectionsAgree mem file space) : CapturesSelected mem file space := by
  intro w arg o ce hargMem hargFile _ ho hce hcespace
  subst hargMem hargFile hcespace
  have hregular : (resolveSpace arg.fileSpace ce.space).Regular := by
    cases hf : arg.fileSpace with
    | none => exact hspace
    | some f => exact hfile f hf
  have hreads : ∀ k ∈ writeReads arg ce, k ∈ captureReads arg
      (resolveSpace arg.memSpace (resolveSpace arg.fileSpace ce.space)) (resolveSpace arg.fileSpace ce.space).npoints := by
    intro k hk
    unfold writeReads at hk
    split at hk
    · cases hk
    · exact hk
  cases hm : arg.memSpace with
  | none =>
    refine ⟨fun _ => rfl, fun k hk => ?_⟩
    have hsel := hreads k hk
    rw [hm] at hsel
    have hselected := selectsFlat_of_mem_captureReads hregular (.inl (Nat.le_refl _)) hsel
    cases hf : arg.fileSpace with
    | none =>
      rw [hf] at hselected
      exact selectsFlat_extent hselected
    | some f =>
      rw [hf] at hselected
      exact hselected
  | some m =>
    have hmregular := hmem m hm
    have hle := npoints_resolveSpace_le arg.fileSpace hspace
    rcases hagree m hm with hsame | ⟨hall, hne, hdiffer⟩ | hhuge
    · refine ⟨fun _ => hsame, fun k hk => ?_⟩
      have hsel := hreads k hk
      rw [hm] at hsel
      exact selectsFlat_of_mem_captureReads hmregular (.inl (by omega)) hsel
    · constructor
      · intro hok
        obtain ⟨payload, hpayload⟩ := payload_of_captureWrite ho hce hok
        rw [writePayload, hm] at hpayload
        have hgathered := npoints_of_capturePayload hmregular hall hne hpayload
        rcases hdiffer with hdiffer | hnone
        · exact absurd hgathered.1 hdiffer
        · rw [hnone] at hgathered
          exact absurd hgathered.2 Bool.false_ne_true
      · intro k hk
        have hsel := hreads k hk
        rw [hm] at hsel
        exact selectsFlat_of_mem_captureReads hmregular (.inr hall) hsel
    · constructor
      · intro hok
        obtain ⟨payload, hpayload⟩ := payload_of_captureWrite ho hce hok
        rw [writePayload, capturePayload, if_pos hhuge] at hpayload
        cases hpayload
      · intro k hk
        have hsel := hreads k hk
        rw [captureReads, if_pos (.inl hhuge)] at hsel
        cases hsel

/-- A live dataset, opened before the step. -/
def liveDataset : Writer := (Writer.init .plain).run [.openLive 0 ['/', 'a'] true, .beginStep [] 0]

-- bytes written to it from a buffer as large as the memory dataspace
def byteWrite (m : Dataspace) (file : Option Dataspace) (space : Dataspace) : WriteArg :=
  ⟨0, nativeUchar, some m, file, List.replicate m.extent.npoints [0], none, some ⟨nativeUchar, space, []⟩⟩

-- the create made up for it
def madeUp (space : Dataspace) : PendingEntry := synthesized .dsetCreate ⟨['/', 'a'], .live, true, none⟩
  ⟨nativeUchar, space, []⟩

theorem entryFor_byteWrite (m : Dataspace) (file : Option Dataspace) (space : Dataspace) :
    entryFor liveDataset.core .dsetCreate ⟨['/', 'a'], .live, true, none⟩ (byteWrite m file space).under =
      some (madeUp space) := rfl

/-- There is no limit and the type is a plain one: the write is accepted when the payload can be captured. -/
theorem isOk_byteWrite {m : Dataspace} {file : Option Dataspace} {space : Dataspace}
    (h : (writePayload (byteWrite m file space) (madeUp space)).isSome = true) :
    (captureWrite (byteWrite m file space) liveDataset).isOk = true := by
  obtain ⟨payload, hpayload⟩ := Option.isSome_iff_exists.mp h
  have ho : liveDataset.wrappers (byteWrite m file space).handle = some ⟨['/', 'a'], .live, true, none⟩ := rfl
  have hidx : stepIndex liveDataset.core .dsetCreate ⟨['/', 'a'], .live, true, none⟩ (byteWrite m file space).under =
      some (liveDataset.core.push (madeUp space), 0) := rfl
  have hce : (liveDataset.core.push (madeUp space)).pending[0]? = some (madeUp space) := rfl
  rcases captureWrite_of_entry ho hidx hce with ⟨hrefused, -⟩ | ⟨-, payload', hres⟩
  · rcases hrefused with hunsafe | hover
    · cases hunsafe
    · exact absurd (hover payload hpayload).1 (Nat.lt_irrefl 0)
  · rw [hres]
    rfl

/-- The payloads that can be captured. -/
theorem isSome_capturePayload {arg : WriteArg} {m : Dataspace} (hm : m.Regular) (hvl : arg.memType.vlKind = .none)
    {nElem : Nat} (hcount : nElem < 2 ^ 63)
    (h : nElem = 0 ∨ m.sel = .all ∨ (m.npoints = nElem ∧ (spaceFlatRuns m maxPushRuns).isSome = true)) :
    (capturePayload arg m nElem).isSome = true := by
  unfold capturePayload
  rw [if_neg (by omega)]
  split
  · rfl
  · rename_i hne
    rw [if_neg (by simp [hvl]), Option.isSome_map]
    by_cases hall : m.sel = .all
    · have hpacked : memSelIsPacked (some m) nElem = true := by simp [memSelIsPacked, hall]
      rw [gatherMem, if_pos hpacked]
      rfl
    · rw [isSome_gatherMem_iff arg.buf hm hall]
      exact (h.resolve_left hne).resolve_left hall

theorem agree_of_capturesSelected {mem file : Option Dataspace} {space : Dataspace}
    (hmem : ∀ m, mem = some m → m.Regular) (h : CapturesSelected mem file space) : SelectionsAgree mem file space := by
  rintro m rfl
  by_contra hnot
  have hsome : (writePayload (byteWrite m file space) (madeUp space)).isSome = true := by
    refine isSome_capturePayload (hmem m rfl) rfl ?_ ?_
    · show (resolveSpace file space).npoints < 2 ^ 63
      by_contra hhuge
      exact hnot (.inr (.inr (Nat.not_lt.mp hhuge)))
    · show (resolveSpace file space).npoints = 0 ∨ _
      by_contra hother
      rw [not_or, not_or, not_and_or, Bool.not_eq_true, Option.isSome_eq_false_iff, Option.isNone_iff_eq_none] at hother
      exact hnot (.inr (.inl ⟨hother.2.1, hother.1, hother.2.2⟩))
  have hsame := (h liveDataset (byteWrite m file space) _ (madeUp space) rfl rfl (List.length_replicate ..) rfl
    (entryFor_byteWrite m file space) rfl).1 (isOk_byteWrite hsome)
  exact hnot (.inl hsame)

/-- For selections that are `H5S_ALL`, everything, or a hyperslab: captures are accepted only at equal sizes and
read selected elements only exactly for the pairs that agree. -/
theorem capturesSelected_iff {mem file : Option Dataspace} {space : Dataspace} (hspace : space.Regular)
    (hmem : ∀ m, mem = some m → m.Regular) (hfile : ∀ f, file = some f → f.Regular) :
    CapturesSelected mem file space ↔ SelectionsAgree mem file space :=
  ⟨agree_of_capturesSelected hmem, capturesSelected_of_agree hspace hmem hfile⟩

-- four elements
def wholeFour : Dataspace := ⟨.simple [4], .all⟩

-- the two in the middle of four
def middleTwo : Dataspace := ⟨.simple [4], .hyperslab [⟨[1], [2]⟩]⟩

theorem wholeFour_regular : wholeFour.Regular :=
  ⟨⟨by decide, by decide, by decide, List.Pairwise.nil, by decide, by decide⟩, .inl rfl⟩

theorem middleTwo_regular : middleTwo.Regular :=
  ⟨⟨by decide, by decide, by decide, List.pairwise_singleton _ _, by decide, by decide⟩, .inr ⟨_, rfl⟩⟩

/-- A buffer of four bytes is written to the middle two of a dataset: HDF5 refuses that, the capture is accepted
and takes the first two. -/
theorem wholeFour_to_two_captured :
    (captureWrite (byteWrite wholeFour (some middleTwo) wholeFour) liveDataset).isOk = true ∧
      wholeFour.npoints = 4 ∧ middleTwo.npoints = 2 ∧ ¬ CapturesSelected (some wholeFour) (some middleTwo) wholeFour := by
  refine ⟨by decide, by decide, by decide, fun h => ?_⟩
  have hsame := (h liveDataset (byteWrite wholeFour (some middleTwo) wholeFour) _ (madeUp wholeFour) rfl rfl rfl rfl
    (entryFor_byteWrite _ _ _) rfl).1 (by decide)
  exact absurd hsame (by decide)

/-- The middle two of a buffer, written to the middle two of a dataset. -/
theorem middleTwo_captured : CapturesSelected (some middleTwo) (some middleTwo) wholeFour := by
  refine (capturesSelected_iff wholeFour_regular ?_ ?_).mpr ?_
  · rintro m ⟨⟩
    exact middleTwo_regular
  · rintro f ⟨⟩
    exact middleTwo_regular
  · rintro m ⟨⟩
    exact .inl rfl

end VolStream
