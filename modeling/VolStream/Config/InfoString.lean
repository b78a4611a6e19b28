import VolStream.Config.Settings
import VolStream.Lib.LastWins

/-!
# The info string

`H5VL_stream_info_to_str` writes the connector info as text, `H5VL_stream_str_to_info` reads it: the class value and
the info string of the connector below, in braces, then `;key=value` for each setting that is not at its default.
Nothing in a value is escaped.
-/

namespace VolStream

open CString LastWins

/-- `H5VL_stream_info_t`, the connector below given by its class value and its own info string (empty for none). -/
structure StreamInfo where
  underValue : UInt32
  underInfo : List Char
  config : StreamConfig
deriving DecidableEq

/-- The settings that have a key in the text, in the order they are written. -/
inductive Setting where
  | na
  | stagePayload
  | maxPendingBytes
  | spillDir
  | concentration
  | bulkThreshold
  | overlay
deriving DecidableEq, Repr

namespace Setting

def all : List Setting := [na, stagePayload, maxPendingBytes, spillDir, concentration, bulkThreshold, overlay]

def key : Setting → List Char
  | na => "na".toList
  | stagePayload => "stage_payload".toList
  | maxPendingBytes => "max_pending_bytes".toList
  | spillDir => "spill_dir".toList
  | concentration => "concentration".toList
  | bulkThreshold => "bulk_threshold".toList
  | overlay => "overlay".toList

-- the chain of `strcmp` in `H5VL_stream_str_to_info`
def ofKey? (key : List Char) : Option Setting := all.find? (·.key = key)

/-- What `H5VL_stream_info_to_str` writes for a setting, if it writes it. -/
def text (c : StreamConfig) : Setting → Option (List Char)
  | na => c.na
  | stagePayload => if 0 ≤ c.stagePayload then some (signed c.stagePayload.toInt) else none
  | maxPendingBytes => if 0 < c.maxPendingBytes then some (decimal c.maxPendingBytes.toNat) else none
  | spillDir => c.spillDir
  | concentration => if 1 < c.concentration then some (decimal c.concentration.toNat) else none
  | bulkThreshold => if 0 ≤ c.bulkThreshold then some (signed c.bulkThreshold.toInt) else none
  | overlay => if 0 ≤ c.overlay then some (signed c.overlay.toInt) else none

/-- What `H5VL_stream_str_to_info` makes of the value of a setting. -/
def assign (value : List Char) (c : StreamConfig) : Setting → StreamConfig
  | na => { c with na := some value }
  | stagePayload => { c with stagePayload := atoi value }
  | maxPendingBytes => { c with maxPendingBytes := UInt64.ofNat (strtoul value) }
  | spillDir => { c with spillDir := some value }
  | concentration => { c with concentration := UInt32.ofNat (strtoul value) }
  | bulkThreshold => { c with bulkThreshold := Int64.ofInt (strtol value) }
  | overlay => { c with overlay := atoi value }

/-- `key=value`. -/
def entry (a : Setting × List Char) : List Char := a.1.key ++ '=' :: a.2

end Setting

/-! ## Writing -/

/-- The settings written after the braces. -/
def writtenSettings (c : StreamConfig) : List (Setting × List Char) :=
  if 0 < c.version then written (Setting.all.map fun s => (s, s.text c)) else []

/-- The texts of the `snprintf` calls, in order. -/
def infoPieces (info : StreamInfo) : List (List Char) :=
  ("under_vol=".toList ++ decimal info.underValue.toNat ++ ";under_info=\x7b".toList ++ info.underInfo ++ ['}'])
    :: (writtenSettings info.config).map fun a => ';' :: Setting.entry a

-- `strSize`
def infoSize (info : StreamInfo) : Nat :=
  32 + info.underInfo.length + 192 + (info.config.na.elim 0 List.length) + (info.config.spillDir.elim 0 List.length)

/-- One `len += snprintf(str + len, size - len, …)`: what fits before the terminator is written, and all that would
have been is counted. Nothing is defined when `size - len` has wrapped. -/
def snprintfAt (size : Nat) (st : List Char × Nat) (piece : List Char) : Option (List Char × Nat) :=
  if st.2 ≤ size then some (st.1 ++ piece.take (size - st.2 - 1), st.2 + piece.length) else none

-- `H5VL_stream_info_to_str`
def infoToStr (info : StreamInfo) : Option (List Char) :=
  ((infoPieces info).foldlM (snprintfAt (infoSize info)) ([], 0)).map Prod.fst

/-! ## Reading -/

/-- What `H5VL_stream_str_to_info` does: returns an info, returns -1, or does not return. The last is its failed
assertion that there are braces in this order; with `}` alone the assertion holds and the copy reads from a null
pointer. -/
inductive InfoParse where
  | ok (info : StreamInfo)
  | failed
  | aborted
deriving DecidableEq

/-- `sscanf(str, "under_vol=%u;", &under_vol_value)`, which may stop after the number. -/
def scanUnderVol (str : List Char) : Option UInt32 :=
  if "under_vol=".toList.isPrefixOf str then
    let rest := str.drop "under_vol=".toList.length
    if (subject rest).2.isEmpty then none else some (UInt32.ofNat (strtoul rest))
  else none

/-- A token cut at its first `=`, if it has one and the key is known. -/
def parseSetting (tok : List Char) : Option (Setting × List Char) := do
  let eq ← strchr '=' tok
  let s ← Setting.ofKey? (tok.take eq)
  pure (s, tok.drop (eq + 1))

-- one round of the loop over the tokens
def readSetting (c : StreamConfig) (tok : List Char) : Option StreamConfig := do
  let a ← parseSetting tok
  pure (a.1.assign a.2 { c with version := configVersion })

-- `H5VL_stream_str_to_info`
def strToInfo (str : List Char) : InfoParse :=
  match scanUnderVol str with
  | none => .failed
  | some underValue =>
    match strchr '{' str, strrchr '}' str with
    | some start, some fin =>
      if start < fin then
        match (strtok ';' (str.drop (fin + 1))).foldlM readSetting { StreamConfig.init with version := 0 } with
        | some c => .ok { underValue, underInfo := (str.drop (start + 1)).take (fin - start - 1), config := c }
        | none => .failed
      else .aborted
    | _, _ => .aborted

/-! ## The settings by name -/

namespace Setting

theorem mem_all (s : Setting) : s ∈ all := by cases s <;> decide

theorem ofKey?_key (s : Setting) : ofKey? s.key = some s := by cases s <;> decide

theorem key_of_ofKey? {k : List Char} {s : Setting} (h : ofKey? k = some s) : s.key = k := by
  simpa using List.find?_some h

-- no key has a character the format gives a meaning
theorem key_plain (s : Setting) : '=' ∉ s.key ∧ ';' ∉ s.key ∧ '}' ∉ s.key := by cases s <;> decide

theorem version_assign (v : List Char) (c : StreamConfig) (s : Setting) : (s.assign v c).version = c.version := by
  cases s <;> rfl

end Setting

theorem parseSetting_eq_some_iff {tok : List Char} {a : Setting × List Char} :
    parseSetting tok = some a ↔ tok = Setting.entry a := by
  obtain ⟨s, v⟩ := a
  constructor
  · intro h
    simp only [parseSetting, Option.bind_eq_bind, Option.bind_eq_some_iff, Option.pure_def, Option.some.injEq,
      Prod.mk.injEq] at h
    obtain ⟨eq, hchr, s', hkey, rfl, rfl⟩ := h
    obtain ⟨k, v, rfl, -, rfl⟩ := eq_append_cons_of_strchr hchr
    simpa [Setting.entry] using (Setting.key_of_ofKey? hkey).symm
  · rintro rfl
    have hchr : strchr '=' (Setting.entry (s, v)) = some s.key.length := strchr_append_cons s.key_plain.1 v
    rw [parseSetting, hchr]
    simp [Setting.entry, Setting.ofKey?_key]

/-- The configuration after the assignments. -/
def settled (as : List (Setting × List Char)) (c : StreamConfig) : StreamConfig :=
  as.foldl (fun c a => a.1.assign a.2 { c with version := configVersion }) c

theorem readSettings_eq_some_iff {toks : List (List Char)} {c c' : StreamConfig} :
    toks.foldlM readSetting c = some c' ↔ ∃ as : List (Setting × List Char), toks = as.map Setting.entry ∧
      c' = settled as c := by
  induction toks generalizing c with
  | nil =>
    constructor
    · intro h
      exact ⟨[], rfl, (Option.some.inj h).symm⟩
    · rintro ⟨as, has, rfl⟩
      rw [List.map_eq_nil_iff.mp has.symm]
      rfl
  | cons tok toks ih =>
    rw [List.foldlM_cons, readSetting]
    constructor
    · intro h
      simp only [Option.bind_eq_bind, Option.bind_eq_some_iff, Option.pure_def, Option.some.injEq] at h
      obtain ⟨_, ⟨a, hparse, rfl⟩, hrest⟩ := h
      obtain ⟨as, rfl, rfl⟩ := ih.mp hrest
      exact ⟨a :: as, by rw [List.map_cons, parseSetting_eq_some_iff.mp hparse], rfl⟩
    · rintro ⟨as, has, rfl⟩
      cases as with
      | nil => cases has
      | cons a as =>
        obtain ⟨rfl, rfl⟩ := List.cons.inj has
        rw [parseSetting_eq_some_iff.mpr rfl]
        exact ih.mpr ⟨as, rfl, rfl⟩

/-! ## What a list of settings leaves -/

theorem settled_version (as : List (Setting × List Char)) (c : StreamConfig) :
    (settled as c).version = if as = [] then c.version else configVersion := by
  induction as generalizing c with
  | nil => rfl
  | cons a as ih =>
    rw [settled, List.foldl_cons, ← settled, ih, Setting.version_assign, if_neg (List.cons_ne_nil a as)]
    split <;> rfl

/-- A field only one setting assigns has the last value given for it. -/
theorem settled_field {β : Type} (f : StreamConfig → β) (s : Setting) (g : List Char → β)
    (hassign : ∀ v c, f (s.assign v c) = g v) (hother : ∀ s', s' ≠ s → ∀ v c, f (s'.assign v c) = f c)
    (hversion : ∀ v c, f { c with version := v } = f c) (as : List (Setting × List Char)) (c : StreamConfig) :
    f (settled as c) = ((lookupLast as s).map g).getD (f c) := by
  induction as generalizing c with
  | nil => rfl
  | cons a as ih =>
    have hlast : lookupLast (a :: as) s = (lookupLast as s).or (lookupLast [a] s) := lookupLast_append [a] as s
    rw [settled, List.foldl_cons, ← settled, ih, hlast]
    cases hrest : lookupLast as s with
    | some v => rfl
    | none =>
      by_cases hs : a.1 = s
      · have hone : lookupLast [a] s = some a.2 := by simp [lookupLast, hs]
        rw [hone, hs, hassign]
        rfl
      · have hone : lookupLast [a] s = none := by simp [lookupLast, hs]
        rw [hone, hother a.1 hs, hversion]
        rfl

section Fields

variable (as : List (Setting × List Char)) (c : StreamConfig)

theorem settled_na : (settled as c).na = ((lookupLast as .na).map some).getD c.na :=
  settled_field StreamConfig.na .na some (fun _ _ => rfl) (fun s' hs v c => by cases s' <;> simp_all [Setting.assign])
    (fun _ _ => rfl) as c

theorem settled_stagePayload :
    (settled as c).stagePayload = ((lookupLast as .stagePayload).map atoi).getD c.stagePayload :=
  settled_field StreamConfig.stagePayload .stagePayload atoi (fun _ _ => rfl)
    (fun s' hs v c => by cases s' <;> simp_all [Setting.assign]) (fun _ _ => rfl) as c

theorem settled_maxPendingBytes : (settled as c).maxPendingBytes =
    ((lookupLast as .maxPendingBytes).map fun v => UInt64.ofNat (strtoul v)).getD c.maxPendingBytes :=
  settled_field StreamConfig.maxPendingBytes .maxPendingBytes _ (fun _ _ => rfl)
    (fun s' hs v c => by cases s' <;> simp_all [Setting.assign]) (fun _ _ => rfl) as c

theorem settled_spillDir : (settled as c).spillDir = ((lookupLast as .spillDir).map some).getD c.spillDir :=
  settled_field StreamConfig.spillDir .spillDir some (fun _ _ => rfl)
    (fun s' hs v c => by cases s' <;> simp_all [Setting.assign]) (fun _ _ => rfl) as c

theorem settled_concentration : (settled as c).concentration =
    ((lookupLast as .concentration).map fun v => UInt32.ofNat (strtoul v)).getD c.concentration :=
  settled_field StreamConfig.concentration .concentration _ (fun _ _ => rfl)
    (fun s' hs v c => by cases s' <;> simp_all [Setting.assign]) (fun _ _ => rfl) as c

theorem settled_bulkThreshold : (settled as c).bulkThreshold =
    ((lookupLast as .bulkThreshold).map fun v => Int64.ofInt (strtol v)).getD c.bulkThreshold :=
  settled_field StreamConfig.bulkThreshold .bulkThreshold _ (fun _ _ => rfl)
    (fun s' hs v c => by cases s' <;> simp_all [Setting.assign]) (fun _ _ => rfl) as c

theorem settled_overlay : (settled as c).overlay = ((lookupLast as .overlay).map atoi).getD c.overlay :=
  settled_field StreamConfig.overlay .overlay atoi (fun _ _ => rfl)
    (fun s' hs v c => by cases s' <;> simp_all [Setting.assign]) (fun _ _ => rfl) as c

end Fields

/-- The configuration in which every setting has the value given for it last, and its default if none was. -/
def lastGiven (as : List (Setting × List Char)) : StreamConfig where
  version := if as = [] then 0 else configVersion
  na := lookupLast as .na
  stagePayload := ((lookupLast as .stagePayload).map atoi).getD StreamConfig.init.stagePayload
  maxPendingBytes :=
    ((lookupLast as .maxPendingBytes).map fun v => UInt64.ofNat (strtoul v)).getD StreamConfig.init.maxPendingBytes
  spillDir := lookupLast as .spillDir
  concentration :=
    ((lookupLast as .concentration).map fun v => UInt32.ofNat (strtoul v)).getD StreamConfig.init.concentration
  bulkThreshold := ((lookupLast as .bulkThreshold).map fun v => Int64.ofInt (strtol v)).getD StreamConfig.init.bulkThreshold
  overlay := ((lookupLast as .overlay).map atoi).getD StreamConfig.init.overlay

theorem settled_init (as : List (Setting × List Char)) :
    settled as { StreamConfig.init with version := 0 } = lastGiven as := by
  have hna : (settled as { StreamConfig.init with version := 0 }).na = lookupLast as .na := by
    rw [settled_na]
    cases lookupLast as .na <;> rfl
  have hspill : (settled as { StreamConfig.init with version := 0 }).spillDir = lookupLast as .spillDir := by
    rw [settled_spillDir]
    cases lookupLast as .spillDir <;> rfl
  exact StreamConfig.ext (settled_version as _) hna (settled_stagePayload as _) (settled_maxPendingBytes as _) hspill
    (settled_concentration as _) (settled_bulkThreshold as _) (settled_overlay as _)

end VolStream
