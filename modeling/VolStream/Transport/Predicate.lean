import VolStream.Manifest

/-!
# Predicates pushed down to the writer

A subscriber's predicate travels as a blob (`H5VL__stream_encode_predicate`); for a slice of data about
to be sent, `H5VL__stream_eval_predicate` finds the runs of elements that satisfy it. Both sides are
converted to one canonical type first, `long long` for integers, and a conversion that leaves its
range saturates. Elements and the constant then compare as they do in exact arithmetic unless both
lie at or beyond the same end of the range and differ (`evalPredicate_exact_iff`).
-/

namespace VolStream

/-! ## Runs of matches -/

/-- The state of the scan: the runs so far, last one first, the first and the last match, and whether
a match found no room. -/
structure PredScan where
  runs : List Run
  span : Option (Nat × Nat)
  overflow : Bool
deriving DecidableEq, Repr

/-- Element `i` matches: extend the last run, open a new one, or give up describing run by run. -/
def PredScan.add (maxRuns i : Nat) (s : PredScan) : PredScan :=
  let span := some ((s.span.map Prod.fst).getD i, i)
  match s.runs with
  | r :: rest =>
      if r.start + r.count = i then { s with runs := { r with count := r.count + 1 } :: rest, span }
      else if s.runs.length < maxRuns then { s with runs := ⟨i, 1⟩ :: s.runs, span }
      else { s with span, overflow := true }
  | [] => if 0 < maxRuns then { s with runs := [⟨i, 1⟩], span } else { s with span, overflow := true }

def PredScan.scan (maxRuns : Nat) : List Bool → Nat → PredScan → PredScan
  | [], _, s => s
  | hit :: rest, i, s => PredScan.scan maxRuns rest (i + 1) (if hit then s.add maxRuns i else s)

-- too fragmented to describe run by run: the span containing every match instead
def PredScan.result (s : PredScan) : List Run × Bool :=
  if s.overflow then
    match s.span with
    | some (first, last) => ([⟨first, last - first + 1⟩], true)
    | none => ([], true)
  else (s.runs.reverse, false)

/-- The runs of the hits, and whether they are coalesced. -/
def hitRuns (maxRuns : Nat) (hits : List Bool) : List Run × Bool :=
  (PredScan.scan maxRuns hits 0 ⟨[], none, false⟩).result

/-- What is known when the scan has come to element `i`. -/
structure PredScan.Inv (hits : List Bool) (i : Nat) (s : PredScan) : Prop where
  ascend : s.runs.Pairwise fun r r' => r'.start + r'.count < r.start
  inside : ∀ r ∈ s.runs, 0 < r.count ∧ r.start + r.count ≤ i
  sound : ∀ r ∈ s.runs, ∀ k ∈ r.elems, hits[k]? = some true
  complete : s.overflow = false → ∀ k < i, hits[k]? = some true → ∃ r ∈ s.runs, k ∈ r.elems
  spans : ∀ k < i, hits[k]? = some true → ∃ first last, s.span = some (first, last) ∧ first ≤ k ∧ k ≤ last
  spanned : ∀ first last, s.span = some (first, last) → first ≤ last ∧ last < i
  overflows : s.overflow = true → s.span ≠ none
  short : s.runs.length ≤ i

theorem Run.mem_elems {r : Run} {k : Nat} : k ∈ r.elems ↔ r.start ≤ k ∧ k < r.start + r.count := by
  rw [Run.elems, List.mem_range'_1]

/-- What the span of the matches is after one more. -/
theorem PredScan.Inv.span_add {hits : List Bool} {i : Nat} {s : PredScan} (h : s.Inv hits i) :
    (∀ k < i + 1, hits[k]? = some true → ∃ first last,
        some ((s.span.map Prod.fst).getD i, i) = some (first, last) ∧ first ≤ k ∧ k ≤ last) ∧
      ∀ first last, some ((s.span.map Prod.fst).getD i, i) = some (first, last) → first ≤ last ∧ last < i + 1 := by
  have hfirst : (s.span.map Prod.fst).getD i ≤ i := by
    cases hspan : s.span with
    | none => exact Nat.le_refl _
    | some p =>
      obtain ⟨first, last⟩ := p
      have := h.spanned first last hspan
      show first ≤ i
      omega
  constructor
  · intro k hk hhit
    refine ⟨_, _, rfl, ?_, by omega⟩
    rcases Nat.lt_or_ge k i with hlt | hge
    · obtain ⟨first, last, hspan, hle, -⟩ := h.spans k hlt hhit
      rw [hspan]
      exact hle
    · omega
  · intro first last heq
    cases heq
    exact ⟨hfirst, Nat.lt_succ_self i⟩

/-- A match recorded keeps the invariant. -/
theorem PredScan.Inv.add {hits : List Bool} {i : Nat} {s : PredScan} (maxRuns : Nat) (h : s.Inv hits i)
    (hhit : hits[i]? = some true) : (s.add maxRuns i).Inv hits (i + 1) := by
  obtain ⟨hspans, hspanned⟩ := h.span_add
  obtain ⟨runs, span, overflow⟩ := s
  -- a new run of its own, behind the runs there are
  have hnew : (∀ r ∈ runs, r.start + r.count < i) →
      PredScan.Inv hits (i + 1) ⟨⟨i, 1⟩ :: runs, some ((span.map Prod.fst).getD i, i), overflow⟩ := by
    intro hbefore
    refine ⟨List.pairwise_cons.mpr ⟨hbefore, h.ascend⟩, ?_, ?_, ?_, hspans, hspanned, by simp, ?_⟩
    · intro r hr
      rcases List.mem_cons.mp hr with rfl | hr
      · exact ⟨Nat.one_pos, Nat.le_refl _⟩
      · have := h.inside r hr
        omega
    · intro r hr k hk
      rcases List.mem_cons.mp hr with rfl | hr
      · have hki : k = i := by simpa [Run.elems] using hk
        rw [hki]
        exact hhit
      · exact h.sound r hr k hk
    · intro hover k hk hkhit
      rcases Nat.lt_or_ge k i with hlt | hge
      · obtain ⟨r, hr, hkr⟩ := h.complete hover k hlt hkhit
        exact ⟨r, List.mem_cons_of_mem _ hr, hkr⟩
      · exact ⟨⟨i, 1⟩, List.mem_cons_self, by simp [Run.elems]; omega⟩
    · have := h.short
      simp only [List.length_cons] at this ⊢
      omega
  -- no room: the runs stay, and the span says where the matches are
  have hfull : PredScan.Inv hits (i + 1) ⟨runs, some ((span.map Prod.fst).getD i, i), true⟩ := by
    refine ⟨h.ascend, ?_, h.sound, by simp, hspans, hspanned, by simp, ?_⟩
    · intro r hr
      have := h.inside r hr
      omega
    · have := h.short
      show runs.length ≤ i + 1
      have : runs.length ≤ i := this
      omega
  cases runs with
  | nil =>
    simp only [PredScan.add]
    split
    · exact hnew fun r hr => absurd hr List.not_mem_nil
    · exact hfull
  | cons r rest =>
    have hr := h.inside r List.mem_cons_self
    obtain ⟨hlater, hrest⟩ := List.pairwise_cons.mp h.ascend
    simp only [PredScan.add]
    split
    · rename_i habut
      refine ⟨List.pairwise_cons.mpr ⟨hlater, hrest⟩, ?_, ?_, ?_, hspans, hspanned, by simp, ?_⟩
      · intro r' hr'
        rcases List.mem_cons.mp hr' with rfl | hr'
        · show 0 < r.count + 1 ∧ r.start + (r.count + 1) ≤ i + 1
          omega
        · have := h.inside r' (List.mem_cons_of_mem _ hr')
          omega
      · intro r' hr' k hk
        rcases List.mem_cons.mp hr' with rfl | hr'
        · have hk' : r.start ≤ k ∧ k < r.start + (r.count + 1) := Run.mem_elems.mp hk
          rcases Nat.lt_or_ge k i with hlt | hge
          · exact h.sound r List.mem_cons_self k (Run.mem_elems.mpr (by omega))
          · rw [show k = i from by omega]
            exact hhit
        · exact h.sound r' (List.mem_cons_of_mem _ hr') k hk
      · intro hover k hk hkhit
        rcases Nat.lt_or_ge k i with hlt | hge
        · obtain ⟨r', hr', hkr⟩ := h.complete hover k hlt hkhit
          rcases List.mem_cons.mp hr' with rfl | hr'
          · have := Run.mem_elems.mp hkr
            refine ⟨_, List.mem_cons_self, Run.mem_elems.mpr ?_⟩
            show r'.start ≤ k ∧ k < r'.start + (r'.count + 1)
            omega
          · exact ⟨r', List.mem_cons_of_mem _ hr', hkr⟩
        · refine ⟨_, List.mem_cons_self, Run.mem_elems.mpr ?_⟩
          show r.start ≤ k ∧ k < r.start + (r.count + 1)
          omega
      · have := h.short
        simp only [List.length_cons] at this ⊢
        omega
    · rename_i habut
      split
      · apply hnew
        intro r' hr'
        rcases List.mem_cons.mp hr' with rfl | hr'
        · omega
        · have := hlater r' hr'
          omega
      · exact hfull

/-- An element that does not match keeps it too. -/
theorem PredScan.Inv.skip {hits : List Bool} {i : Nat} {s : PredScan} (h : s.Inv hits i)
    (hmiss : hits[i]? = some false) : s.Inv hits (i + 1) := by
  have hbefore : ∀ k < i + 1, hits[k]? = some true → k < i := by
    intro k hk hhit
    rcases Nat.lt_or_ge k i with hlt | hge
    · exact hlt
    · rw [show k = i from by omega, hmiss] at hhit
      cases hhit
  refine ⟨h.ascend, ?_, h.sound, ?_, ?_, ?_, h.overflows, Nat.le_succ_of_le h.short⟩
  · intro r hr
    have := h.inside r hr
    omega
  · intro hover k hk hhit
    exact h.complete hover k (hbefore k hk hhit) hhit
  · intro k hk hhit
    exact h.spans k (hbefore k hk hhit) hhit
  · intro first last hspan
    have := h.spanned first last hspan
    omega

/-- The scan keeps the invariant to the end. -/
theorem PredScan.Inv.scan {hits : List Bool} (maxRuns : Nat) {rest : List Bool} {i : Nat} {s : PredScan}
    (h : s.Inv hits i) (hrest : hits.drop i = rest) :
    (PredScan.scan maxRuns rest i s).Inv hits (i + rest.length) := by
  induction rest generalizing i s with
  | nil => exact h
  | cons hit rest ih =>
    have hat : hits[i]? = some hit := by
      rw [← List.head?_drop, hrest]
      rfl
    have htail : hits.drop (i + 1) = rest := by
      rw [← List.drop_drop, hrest]
      rfl
    have hstep : (if hit then s.add maxRuns i else s).Inv hits (i + 1) := by
      cases hit with
      | true => exact h.add maxRuns hat
      | false => exact h.skip hat
    have := ih hstep htail
    rw [List.length_cons, show i + (rest.length + 1) = i + 1 + rest.length from by omega]
    exact this

/-- Runs of hits: non-empty, ascending with a gap between any two, holding every hit, and holding
nothing else unless they are coalesced. -/
structure HitRuns (hits : List Bool) (runs : List Run) (coalesced : Bool) : Prop where
  inside : ∀ r ∈ runs, 0 < r.count ∧ r.start + r.count ≤ hits.length
  ascend : runs.Pairwise fun r r' => r.start + r.count < r'.start
  complete : ∀ k : Nat, hits[k]? = some true → ∃ r ∈ runs, k ∈ r.elems
  exact : coalesced = false → ∀ r ∈ runs, ∀ k ∈ r.elems, hits[k]? = some true

theorem PredScan.inv_start (hits : List Bool) : PredScan.Inv hits 0 ⟨[], none, false⟩ :=
  ⟨List.Pairwise.nil, fun r hr => absurd hr List.not_mem_nil, fun r hr => absurd hr List.not_mem_nil,
    fun _ k hk => absurd hk (Nat.not_lt_zero k), fun k hk => absurd hk (Nat.not_lt_zero k),
    fun first last h => (by cases h), fun h => (by cases h), Nat.le_refl 0⟩

theorem hitRuns_spec (maxRuns : Nat) (hits : List Bool) :
    HitRuns hits (hitRuns maxRuns hits).1 (hitRuns maxRuns hits).2 := by
  have hend := (PredScan.inv_start hits).scan maxRuns (List.drop_zero (l := hits))
  rw [Nat.zero_add] at hend
  have hlt : ∀ k : Nat, hits[k]? = some true → k < hits.length := by
    intro k hk
    exact (List.getElem?_eq_some_iff.mp hk).1
  unfold hitRuns PredScan.result
  generalize PredScan.scan maxRuns hits 0 ⟨[], none, false⟩ = s at hend
  obtain ⟨runs, span, overflow⟩ := s
  cases overflow with
  | false =>
    refine ⟨?_, List.pairwise_reverse.mpr hend.ascend, ?_, ?_⟩
    · intro r hr
      exact hend.inside r (List.mem_reverse.mp hr)
    · intro k hk
      obtain ⟨r, hr, hkr⟩ := hend.complete rfl k (hlt k hk) hk
      exact ⟨r, List.mem_reverse.mpr hr, hkr⟩
    · intro _ r hr k hk
      exact hend.sound r (List.mem_reverse.mp hr) k hk
  | true =>
    cases span with
    | none => exact absurd rfl (hend.overflows rfl)
    | some p =>
      obtain ⟨first, last⟩ := p
      have hspan := hend.spanned first last rfl
      refine ⟨?_, List.pairwise_singleton _ _, ?_, by simp⟩
      · intro r hr
        rw [List.mem_singleton.mp hr]
        show 0 < last - first + 1 ∧ first + (last - first + 1) ≤ hits.length
        omega
      · intro k hk
        obtain ⟨first', last', heq, hle, hge⟩ := hend.spans k (hlt k hk) hk
        cases heq
        refine ⟨_, List.mem_singleton_self _, Run.mem_elems.mpr ?_⟩
        show first ≤ k ∧ k < first + (last - first + 1)
        omega

theorem PredScan.add_overflow {maxRuns i : Nat} {s : PredScan} (hroom : s.runs.length < maxRuns)
    (h : s.overflow = false) : (s.add maxRuns i).overflow = false := by
  obtain ⟨runs, span, overflow⟩ := s
  cases runs with
  | nil =>
    simp only [PredScan.add]
    rw [if_pos (by simpa using hroom)]
    exact h
  | cons r rest =>
    have hlen : (r :: rest).length < maxRuns := hroom
    simp only [PredScan.add, if_pos hlen]
    split <;> exact h

/-- With room for every element the runs are never coalesced. -/
theorem PredScan.scan_overflow {hits : List Bool} {maxRuns : Nat} {rest : List Bool} {i : Nat} {s : PredScan}
    (hinv : s.Inv hits i) (hrest : hits.drop i = rest) (hroom : i + rest.length ≤ maxRuns)
    (h : s.overflow = false) : (PredScan.scan maxRuns rest i s).overflow = false := by
  induction rest generalizing i s with
  | nil => exact h
  | cons hit rest ih =>
    rw [List.length_cons] at hroom
    have hat : hits[i]? = some hit := by
      rw [← List.head?_drop, hrest]
      rfl
    have htail : hits.drop (i + 1) = rest := by
      rw [← List.drop_drop, hrest]
      rfl
    have hshort := hinv.short
    cases hit with
    | true => exact ih (hinv.add maxRuns hat) htail (by omega) (PredScan.add_overflow (by omega) h)
    | false => exact ih (hinv.skip hat) htail (by omega) h

theorem hitRuns_uncoalesced {maxRuns : Nat} {hits : List Bool} (hroom : hits.length ≤ maxRuns) :
    (hitRuns maxRuns hits).2 = false := by
  have h : (PredScan.scan maxRuns hits 0 ⟨[], none, false⟩).overflow = false :=
    PredScan.scan_overflow (PredScan.inv_start hits) List.drop_zero (by omega) rfl
  rw [hitRuns, PredScan.result, h]
  rfl

/-! ## The predicate and its blob -/

/-- `H5VL_stream_pred_op_t`. -/
inductive PredOp where
  | lt
  | le
  | gt
  | ge
  | eq
  | ne
deriving DecidableEq, Repr

def PredOp.code : PredOp → UInt8
  | .lt => 0
  | .le => 1
  | .gt => 2
  | .ge => 3
  | .eq => 4
  | .ne => 5

/-- The comparison in exact arithmetic. -/
def PredOp.holds (op : PredOp) (v c : Int) : Bool :=
  match op with
  | .lt => decide (v < c)
  | .le => decide (v ≤ c)
  | .gt => decide (v > c)
  | .ge => decide (v ≥ c)
  | .eq => decide (v = c)
  | .ne => decide (v ≠ c)

/-- `H5VL__stream_pred_match_ll`; an operator it does not know matches nothing. -/
def predMatchLl (v c : Int) (op : UInt8) : Bool :=
  if op = 0 then decide (v < c)
  else if op = 1 then decide (v ≤ c)
  else if op = 2 then decide (v > c)
  else if op = 3 then decide (v ≥ c)
  else if op = 4 then decide (v = c)
  else if op = 5 then decide (v ≠ c)
  else false

theorem predMatchLl_code (op : PredOp) (v c : Int) : predMatchLl v c op.code = op.holds v c := by
  cases op <;> rfl

/-- `H5VL__stream_put_u32le`. -/
def putU32le (v : Nat) : Bytes :=
  [UInt8.ofNat v, UInt8.ofNat (v / 2 ^ 8), UInt8.ofNat (v / 2 ^ 16), UInt8.ofNat (v / 2 ^ 24)]

/-- `H5VL__stream_get_u32le`, of the first four bytes. -/
def getU32le : Bytes → Nat
  | b0 :: b1 :: b2 :: b3 :: _ => b0.toNat + b1.toNat * 2 ^ 8 + b2.toNat * 2 ^ 16 + b3.toNat * 2 ^ 24
  | _ => 0

theorem getU32le_putU32le (v : Nat) (rest : Bytes) : getU32le (putU32le v ++ rest) = v % 2 ^ 32 := by
  simp only [putU32le, List.cons_append, List.nil_append, getU32le, UInt8.toNat_ofNat']
  omega

/-- `H5VL_STREAM_PRED_HDR`. -/
def predHdr : Nat := 12

/-- `H5VL__stream_encode_predicate`: version, operator, two zero bytes, the two lengths, the constant's
type and its value. -/
def encodePredicate (op : PredOp) (typeEnc value : Bytes) : Bytes :=
  [1, op.code, 0, 0] ++ (putU32le typeEnc.length ++ (putU32le value.length ++ (typeEnc ++ value)))

/-- What `H5Tget_class` and `H5Tget_sign` distinguish here. -/
inductive TypeClass where
  | integer (signed : Bool)
  | float
  | other
deriving DecidableEq, Repr

/-- The H5T functions the evaluation calls, on encoded types: `H5Tdecode2` with the class and the size of
the type, and `H5Tconvert` of one element to `H5T_NATIVE_LLONG` and to `H5T_NATIVE_DOUBLE`. -/
structure H5T (δ : Type) where
  decode : Bytes → Option (TypeClass × Nat)
  toLlong : Bytes → Bytes → Option Int
  toDouble : Bytes → Bytes → Option δ
  matchD : δ → δ → UInt8 → Bool

/-- `H5VL__stream_eval_predicate`: the runs and whether they are coalesced; `none` declines. -/
def evalPredicate {δ : Type} (h5t : H5T δ) (buf : List Bytes) (elemSize : Nat) (predEnc typeEnc : Bytes)
    (maxRuns : Nat) : Option (List Run × Bool) :=
  if maxRuns = 0 ∨ buf = [] ∨ elemSize = 0 ∨ predEnc.length < predHdr ∨ typeEnc = [] then none
  else if predEnc.head? ≠ some 1 then none
  else
    let op := predEnc.tail.headD 0
    let typeLen := getU32le (predEnc.drop 4)
    let valLen := getU32le (predEnc.drop 8)
    if predHdr + typeLen + valLen ≠ predEnc.length then none
    else
      let ptypeEnc := (predEnc.drop predHdr).take typeLen
      let value := (predEnc.drop (predHdr + typeLen)).take valLen
      match h5t.decode typeEnc, h5t.decode ptypeEnc with
      | some (cls, size), some _ =>
          if size ≠ elemSize then none
          else match cls with
            | .integer signed =>
                -- an unsigned 64-bit value can exceed what `long long` represents
                if signed = false ∧ 8 ≤ size then none
                else match h5t.toLlong ptypeEnc value, buf.mapM (h5t.toLlong typeEnc) with
                  | some c, some vs => some (hitRuns maxRuns (vs.map (predMatchLl · c op)))
                  | _, _ => none
            | .float =>
                if size > 8 then none
                else match h5t.toDouble ptypeEnc value, buf.mapM (h5t.toDouble typeEnc) with
                  | some c, some vs => some (hitRuns maxRuns (vs.map (h5t.matchD · c op)))
                  | _, _ => none
            | .other => none
      | _, _ => none

/-! ## Exact arithmetic and the canonical type -/

def llongMax : Int := 2 ^ 63 - 1

def llongMin : Int := -2 ^ 63

/-- What `H5Tconvert` makes of an integer in a `long long`. -/
def saturate (x : Int) : Int := max llongMin (min x llongMax)

/-- `value` is the integer an encoded element stands for, and conversion to `long long` saturates it. -/
def H5T.Saturates {δ : Type} (h5t : H5T δ) (value : Bytes → Bytes → Int) : Prop :=
  ∀ typeEnc elem signed size, h5t.decode typeEnc = some (.integer signed, size) →
    h5t.toLlong typeEnc elem = some (saturate (value typeEnc elem))

/-- `x` and `c` lie at or beyond the same end of the range of `long long`. -/
def SameEnd (x c : Int) : Prop := llongMax ≤ x ∧ llongMax ≤ c ∨ x ≤ llongMin ∧ c ≤ llongMin

/-- Whether the operator answers for `x` and `c` as it does for two equal values. -/
def PredOp.asEqual (op : PredOp) (x c : Int) : Prop :=
  match op with
  | .lt | .ge => c ≤ x
  | .le | .gt => x ≤ c
  | .eq | .ne => x = c

theorem holds_saturate_iff (op : PredOp) (x c : Int) :
    op.holds (saturate x) (saturate c) = op.holds x c ↔ (SameEnd x c → op.asEqual x c) := by
  cases op
  all_goals
    simp only [PredOp.holds, PredOp.asEqual, decide_eq_decide]
    simp only [SameEnd, saturate, llongMax, llongMin]
    omega

/-- The blob of a predicate is read back field by field. -/
theorem encodePredicate_fields (op : PredOp) (typeEnc value : Bytes) :
    (encodePredicate op typeEnc value).head? = some 1 ∧
      (encodePredicate op typeEnc value).tail.headD 0 = op.code ∧
      getU32le ((encodePredicate op typeEnc value).drop 4) = typeEnc.length % 2 ^ 32 ∧
      getU32le ((encodePredicate op typeEnc value).drop 8) = value.length % 2 ^ 32 ∧
      (encodePredicate op typeEnc value).drop predHdr = typeEnc ++ value ∧
      (encodePredicate op typeEnc value).length = predHdr + typeEnc.length + value.length := by
  have hdrop4 : (encodePredicate op typeEnc value).drop 4 =
      putU32le typeEnc.length ++ (putU32le value.length ++ (typeEnc ++ value)) := rfl
  have hdrop8 : (encodePredicate op typeEnc value).drop 8 = putU32le value.length ++ (typeEnc ++ value) := rfl
  refine ⟨rfl, rfl, ?_, ?_, rfl, ?_⟩
  · rw [hdrop4, getU32le_putU32le]
  · rw [hdrop8, getU32le_putU32le]
  · simp only [encodePredicate, putU32le, predHdr, List.length_append, List.length_cons, List.length_nil]
    omega

/-- When a predicate over integers is evaluated at all. -/
structure Accepted (buf : List Bytes) (elemSize : Nat) (ptypeEnc constant typeEnc : Bytes) (signed : Bool)
    (size : Nat) : Prop where
  elems : buf ≠ []
  elemSize_pos : elemSize ≠ 0
  encoded : typeEnc ≠ []
  typeLen : ptypeEnc.length < 2 ^ 32
  valLen : constant.length < 2 ^ 32
  sized : size = elemSize
  fits : ¬ (signed = false ∧ 8 ≤ size)

variable {δ : Type} {h5t : H5T δ} {value : Bytes → Bytes → Int}

theorem mapM_toLlong (hsat : h5t.Saturates value) {typeEnc : Bytes} {signed : Bool} {size : Nat}
    (hdata : h5t.decode typeEnc = some (.integer signed, size)) (buf : List Bytes) :
    buf.mapM (h5t.toLlong typeEnc) = some (buf.map fun e => saturate (value typeEnc e)) := by
  induction buf with
  | nil => rfl
  | cons e buf ih =>
    rw [List.mapM_cons, hsat typeEnc e signed size hdata, ih]
    rfl

/-- The evaluation of a predicate over integer data: declined, or the runs of the elements that match
in the canonical type. -/
theorem evalPredicate_encode (hsat : h5t.Saturates value) {ptypeEnc typeEnc : Bytes} {signed signed' : Bool}
    {size size' : Nat} (hdata : h5t.decode typeEnc = some (.integer signed, size))
    (hconst : h5t.decode ptypeEnc = some (.integer signed', size')) (buf : List Bytes) (elemSize : Nat)
    (op : PredOp) (constant : Bytes) (maxRuns : Nat) :
    (Accepted buf elemSize ptypeEnc constant typeEnc signed size ∧ maxRuns ≠ 0 ∧
      evalPredicate h5t buf elemSize (encodePredicate op ptypeEnc constant) typeEnc maxRuns =
        some (hitRuns maxRuns (buf.map fun e =>
          op.holds (saturate (value typeEnc e)) (saturate (value ptypeEnc constant))))) ∨
    (¬ (Accepted buf elemSize ptypeEnc constant typeEnc signed size ∧ maxRuns ≠ 0) ∧
      evalPredicate h5t buf elemSize (encodePredicate op ptypeEnc constant) typeEnc maxRuns = none) := by
  obtain ⟨hhead, hop, htype, hval, hbody, hlen⟩ := encodePredicate_fields op ptypeEnc constant
  have hlong : ¬ (encodePredicate op ptypeEnc constant).length < predHdr := by omega
  unfold evalPredicate
  by_cases hguard : maxRuns = 0 ∨ buf = [] ∨ elemSize = 0 ∨
      (encodePredicate op ptypeEnc constant).length < predHdr ∨ typeEnc = []
  · refine .inr ⟨?_, if_pos hguard⟩
    rintro ⟨⟨helems, hpos, henc, -, -, -, -⟩, hmax⟩
    tauto
  · rw [if_neg hguard, if_neg (by rw [hhead]; simp)]
    simp only [hop, htype, hval, hlen]
    by_cases hlens : predHdr + ptypeEnc.length % 2 ^ 32 + constant.length % 2 ^ 32 ≠
        predHdr + ptypeEnc.length + constant.length
    · refine .inr ⟨?_, if_pos hlens⟩
      rintro ⟨hacc, -⟩
      have := hacc.typeLen
      have := hacc.valLen
      omega
    · have htl : ptypeEnc.length % 2 ^ 32 = ptypeEnc.length := by omega
      have hvl : constant.length % 2 ^ 32 = constant.length := by omega
      rw [if_neg hlens]
      -- the two slices of the body are the type and the constant
      have hptype : ((encodePredicate op ptypeEnc constant).drop predHdr).take ptypeEnc.length = ptypeEnc := by
        rw [hbody, List.take_left]
      have hvalue : ((encodePredicate op ptypeEnc constant).drop (predHdr + ptypeEnc.length)).take constant.length
          = constant := by
        rw [← List.drop_drop, hbody, List.drop_left, List.take_length]
      rw [htl, hvl, hptype, hvalue, hdata, hconst]
      simp only
      by_cases hsize : size ≠ elemSize
      · refine .inr ⟨?_, if_pos hsize⟩
        rintro ⟨hacc, -⟩
        exact hsize hacc.sized
      · rw [if_neg hsize]
        by_cases hwide : signed = false ∧ 8 ≤ size
        · refine .inr ⟨?_, if_pos hwide⟩
          rintro ⟨hacc, -⟩
          exact hacc.fits hwide
        · rw [if_neg hwide, hsat ptypeEnc constant signed' size' hconst, mapM_toLlong hsat hdata]
          have hacc : Accepted buf elemSize ptypeEnc constant typeEnc signed size :=
            ⟨fun h => hguard (by tauto), fun h => hguard (by tauto), fun h => hguard (by tauto),
              by omega, by omega, by tauto, hwide⟩
          refine .inl ⟨hacc, fun h => hguard (by tauto), ?_⟩
          simp only [List.map_map, Function.comp_def, predMatchLl_code]

/-- Two sets of hits with the same uncoalesced runs are the same. -/
theorem hits_eq_of_runs {hits hits' : List Bool} {runs : List Run} (hlen : hits.length = hits'.length)
    (h : HitRuns hits runs false) (h' : HitRuns hits' runs false) : hits = hits' := by
  apply List.ext_getElem? 
  intro k
  have hiff : hits[k]? = some true ↔ hits'[k]? = some true := by
    constructor
    · intro hk
      obtain ⟨r, hr, hkr⟩ := h.complete k hk
      exact h'.exact rfl r hr k hkr
    · intro hk
      obtain ⟨r, hr, hkr⟩ := h'.complete k hk
      exact h.exact rfl r hr k hkr
  rcases Nat.lt_or_ge k hits.length with hlt | hge
  · rw [List.getElem?_eq_getElem hlt, List.getElem?_eq_getElem (hlen ▸ hlt)] at hiff ⊢
    simp only [Option.some.injEq] at hiff ⊢
    exact Bool.eq_iff_iff.mpr hiff
  · rw [List.getElem?_eq_none hge, List.getElem?_eq_none (hlen ▸ hge)]

/-- An integer predicate that is evaluated, whatever the room for runs, finds the elements that satisfy
the comparison in exact arithmetic, exactly when no element lies with the constant at one end of
the canonical range and differs from it in a way the operator sees. -/
theorem evalPredicate_exact_iff (h5t : H5T δ) (value : Bytes → Bytes → Int) (hsat : h5t.Saturates value)
    (buf : List Bytes) (elemSize : Nat) (op : PredOp) (ptypeEnc constant typeEnc : Bytes)
    (hdata : ∃ signed size, h5t.decode typeEnc = some (.integer signed, size))
    (hconst : ∃ signed size, h5t.decode ptypeEnc = some (.integer signed, size))
    (haccept : ∃ maxRuns,
      (evalPredicate h5t buf elemSize (encodePredicate op ptypeEnc constant) typeEnc maxRuns).isSome = true) :
    (∀ maxRuns runs coalesced, 0 < maxRuns →
        evalPredicate h5t buf elemSize (encodePredicate op ptypeEnc constant) typeEnc maxRuns =
          some (runs, coalesced) →
        HitRuns (buf.map fun e => op.holds (value typeEnc e) (value ptypeEnc constant)) runs coalesced) ↔
      ∀ e ∈ buf, SameEnd (value typeEnc e) (value ptypeEnc constant) →
        op.asEqual (value typeEnc e) (value ptypeEnc constant) := by
  obtain ⟨signed, size, hdata⟩ := hdata
  obtain ⟨signed', size', hconst⟩ := hconst
  have heval := evalPredicate_encode hsat hdata hconst buf elemSize op constant
  have hacc : Accepted buf elemSize ptypeEnc constant typeEnc signed size := by
    obtain ⟨maxRuns, hsome⟩ := haccept
    rcases heval maxRuns with ⟨hacc, -, -⟩ | ⟨-, hnone⟩
    · exact hacc
    · rw [hnone] at hsome
      cases hsome
  constructor
  · intro hexact e he
    -- with room for every element nothing is coalesced
    have hpos : max 1 buf.length ≠ 0 := by omega
    rcases heval (max 1 buf.length) with ⟨-, -, hsome⟩ | ⟨hnot, -⟩
    · have hco := @hitRuns_uncoalesced (max 1 buf.length) (buf.map fun e =>
        op.holds (saturate (value typeEnc e)) (saturate (value ptypeEnc constant)))
        (by rw [List.length_map]; omega)
      have hcode := hitRuns_spec (max 1 buf.length) (buf.map fun e =>
        op.holds (saturate (value typeEnc e)) (saturate (value ptypeEnc constant)))
      have hreal := hexact _ (hitRuns (max 1 buf.length) _).1 (hitRuns (max 1 buf.length) _).2 (by omega) hsome
      rw [hco] at hcode hreal
      have heq := hits_eq_of_runs (by rw [List.length_map, List.length_map]) hcode hreal
      rw [List.map_inj_left] at heq
      exact (holds_saturate_iff op _ _).mp (heq e he)
    · exact absurd ⟨hacc, hpos⟩ hnot
  · intro hsame maxRuns runs coalesced _ hsome
    rcases heval maxRuns with ⟨-, -, hsome'⟩ | ⟨-, hnone⟩
    · rw [hsome'] at hsome
      have hspec := hitRuns_spec maxRuns (buf.map fun e =>
        op.holds (saturate (value typeEnc e)) (saturate (value ptypeEnc constant)))
      rw [Option.some.inj hsome] at hspec
      rw [show (buf.map fun e => op.holds (value typeEnc e) (value ptypeEnc constant)) = buf.map fun e =>
        op.holds (saturate (value typeEnc e)) (saturate (value ptypeEnc constant)) from
        List.map_inj_left.mpr fun e he => ((holds_saturate_iff op _ _).mpr (hsame e he)).symm]
      exact hspec
    · rw [hnone] at hsome
      cases hsome

/-! ### One library for the examples -/

/-- The integer little-endian bytes stand for. -/
def leNat : Bytes → Nat
  | [] => 0
  | b :: rest => b.toNat + 256 * leNat rest

/-- Integer types by their sign and their size: `[1, n]` signed, `[0, n]` unsigned. -/
def leValue (typeEnc elem : Bytes) : Int :=
  let n := leNat elem
  if typeEnc.head? = some 1 ∧ 2 ^ (8 * elem.length) ≤ 2 * n then (n : Int) - 2 ^ (8 * elem.length) else n

def leTypes : H5T Unit where
  decode
    | [0, n] => some (.integer false, n.toNat)
    | [1, n] => some (.integer true, n.toNat)
    | _ => none
  toLlong typeEnc elem := some (saturate (leValue typeEnc elem))
  toDouble _ _ := none
  matchD _ _ _ := false

theorem leTypes_saturates : leTypes.Saturates leValue := fun _ _ _ _ _ => rfl

/-- Bytes -1, 5 and 7 against the 16-bit constant 6. -/
theorem leTypes_exact :
    evalPredicate leTypes [[255], [5], [7]] 1 (encodePredicate .lt [1, 2] [6, 0]) [1, 1] 4 =
        some ([⟨0, 2⟩], false) ∧
      HitRuns ([[255], [5], [7]].map fun e => PredOp.lt.holds (leValue [1, 1] e) (leValue [1, 2] [6, 0]))
        [⟨0, 2⟩] false := by
  have hsome : evalPredicate leTypes [[255], [5], [7]] 1 (encodePredicate .lt [1, 2] [6, 0]) [1, 1] 4 =
      some ([⟨0, 2⟩], false) := by decide
  refine ⟨hsome, ?_⟩
  refine (evalPredicate_exact_iff leTypes leValue leTypes_saturates [[255], [5], [7]] 1 .lt [1, 2] [6, 0] [1, 1]
    ⟨true, 1, rfl⟩ ⟨true, 2, rfl⟩ ⟨4, by rw [hsome]; rfl⟩).mpr ?_ 4 _ _ (by decide) hsome
  have hvalues : ∀ e ∈ [[255], [5], [7]], -128 ≤ leValue [1, 1] e ∧ leValue [1, 1] e < 128 := by decide
  intro e he hend
  have := hvalues e he
  simp only [SameEnd, llongMax, llongMin] at hend
  omega

/-- The largest `long long` is less than the unsigned 2⁶³, but not less than what the constant
becomes. -/
theorem llongMax_undersent :
    evalPredicate leTypes [[255, 255, 255, 255, 255, 255, 255, 127]] 8
        (encodePredicate .lt [0, 8] [0, 0, 0, 0, 0, 0, 0, 128]) [1, 8] 64 = some ([], false) ∧
      leValue [1, 8] [255, 255, 255, 255, 255, 255, 255, 127] = llongMax ∧
      leValue [0, 8] [0, 0, 0, 0, 0, 0, 0, 128] = 2 ^ 63 ∧
      PredOp.lt.holds llongMax (2 ^ 63) = true ∧
      ¬ HitRuns ([[255, 255, 255, 255, 255, 255, 255, 127]].map fun e =>
        PredOp.lt.holds (leValue [1, 8] e) (leValue [0, 8] [0, 0, 0, 0, 0, 0, 0, 128])) [] false := by
  refine ⟨by decide, by decide, by decide, by decide, ?_⟩
  intro h
  obtain ⟨r, hr, -⟩ := h.complete 0 (by decide)
  exact absurd hr List.not_mem_nil

end VolStream
