import VolStream.Config.InfoString

/-!
# Info strings read back

`H5VL_stream_str_to_info` cuts a string at its first `{`, at its last `}` and at every `;` behind that, whatever the
values are: what is read has neither `;` nor `}` in a setting (`Denotes.plain`). An info therefore survives being
written and read exactly if its own settings have neither. Defaults are not written; `effective_lastGiven` says that
this makes no difference to a file.
-/

namespace VolStream

open CString LastWins

/-! ## The text fits its buffer -/

theorem foldlM_snprintfAt {size : Nat} {pieces : List (List Char)} {text : List Char}
    (h : (text ++ pieces.flatten).length < size) :
    pieces.foldlM (snprintfAt size) (text, text.length) =
      some (text ++ pieces.flatten, (text ++ pieces.flatten).length) := by
  induction pieces generalizing text with
  | nil => simp
  | cons piece pieces ih =>
    rw [List.flatten_cons, ← List.append_assoc] at h ⊢
    have hlen := h
    simp only [List.length_append] at hlen
    have hpiece : snprintfAt size (text, text.length) piece = some (text ++ piece, (text ++ piece).length) := by
      rw [snprintfAt, if_pos (show text.length ≤ size by omega), List.take_of_length_le (by omega), List.length_append]
    rw [List.foldlM_cons, hpiece]
    exact ih h

/-- The text behind the braces. -/
def settingsText (as : List (Setting × List Char)) : List Char := as.flatMap fun a => ';' :: Setting.entry a

-- what stands before the opening brace
def infoHead (info : StreamInfo) : List Char :=
  "under_vol=".toList ++ decimal info.underValue.toNat ++ ";under_info=".toList

def infoText (info : StreamInfo) : List Char :=
  infoHead info ++ '{' :: (info.underInfo ++ '}' :: settingsText (writtenSettings info.config))

theorem flatten_infoPieces (info : StreamInfo) : (infoPieces info).flatten = infoText info := by
  have hbrace : ";under_info=\x7b".toList = ";under_info=".toList ++ ['{'] := by simp
  rw [infoPieces, List.flatten_cons, ← List.flatMap_def, ← settingsText, hbrace]
  unfold infoText infoHead
  simp only [List.append_assoc, List.cons_append, List.nil_append]

/-- The most characters a setting takes in the text. -/
def settingRoom (c : StreamConfig) : Setting → Nat
  | .na => c.na.elim 0 List.length + 4
  | .stagePayload => 25
  | .maxPendingBytes => 39
  | .spillDir => c.spillDir.elim 0 List.length + 11
  | .concentration => 25
  | .bulkThreshold => 35
  | .overlay => 19

theorem length_entry (s : Setting) (v : List Char) : (Setting.entry (s, v)).length = s.key.length + v.length + 1 := by
  simp only [Setting.entry, List.length_append, List.length_cons]
  omega

theorem length_text_le {c : StreamConfig} {s : Setting} {v : List Char} (h : s.text c = some v) :
    (';' :: Setting.entry (s, v)).length ≤ settingRoom c s := by
  rw [List.length_cons, length_entry]
  cases s with
  | na =>
    have hkey : Setting.na.key.length = 2 := rfl
    simp only [settingRoom, show c.na = some v from h, Option.elim_some]
    omega
  | spillDir =>
    have hkey : Setting.spillDir.key.length = 9 := rfl
    simp only [settingRoom, show c.spillDir = some v from h, Option.elim_some]
    omega
  | stagePayload =>
    have hkey : Setting.stagePayload.key.length = 13 := rfl
    obtain ⟨h0, hv⟩ := Option.ite_none_right_eq_some.mp h
    obtain rfl := Option.some.inj hv
    have hlen := length_signed_int32 (Int32.le_iff_toInt_le.mp h0)
    simp only [settingRoom]
    omega
  | overlay =>
    have hkey : Setting.overlay.key.length = 7 := rfl
    obtain ⟨h0, hv⟩ := Option.ite_none_right_eq_some.mp h
    obtain rfl := Option.some.inj hv
    have hlen := length_signed_int32 (Int32.le_iff_toInt_le.mp h0)
    simp only [settingRoom]
    omega
  | bulkThreshold =>
    have hkey : Setting.bulkThreshold.key.length = 14 := rfl
    obtain ⟨h0, hv⟩ := Option.ite_none_right_eq_some.mp h
    obtain rfl := Option.some.inj hv
    have h0' : 0 ≤ c.bulkThreshold.toInt := Int64.le_iff_toInt_le.mp h0
    have hlt := c.bulkThreshold.toInt_lt
    have hlen := @length_signed_le c.bulkThreshold.toInt 19 h0' (by omega) (by omega)
    simp only [settingRoom]
    omega
  | maxPendingBytes =>
    have hkey : Setting.maxPendingBytes.key.length = 17 := rfl
    obtain ⟨-, hv⟩ := Option.ite_none_right_eq_some.mp h
    obtain rfl := Option.some.inj hv
    have hlt := c.maxPendingBytes.toNat_lt
    have hlen := @length_decimal_le c.maxPendingBytes.toNat 20 (by omega) (by omega)
    simp only [settingRoom]
    omega
  | concentration =>
    have hkey : Setting.concentration.key.length = 13 := rfl
    obtain ⟨-, hv⟩ := Option.ite_none_right_eq_some.mp h
    obtain rfl := Option.some.inj hv
    have hlen := length_decimal_uint32 c.concentration
    simp only [settingRoom]
    omega

theorem length_settingsText_le (c : StreamConfig) (l : List Setting) :
    (settingsText (written (l.map fun s => (s, s.text c)))).length ≤ l.foldr (settingRoom c · + ·) 0 := by
  induction l with
  | nil => exact Nat.le_refl 0
  | cons s l ih =>
    rw [List.map_cons, List.foldr_cons]
    cases hs : s.text c with
    | none => exact Nat.le_trans ih (Nat.le_add_left _ _)
    | some v =>
      have hle := length_text_le hs
      have hsplit : settingsText (written ((s, some v) :: l.map fun s => (s, s.text c))) =
          (';' :: Setting.entry (s, v)) ++ settingsText (written (l.map fun s => (s, s.text c))) := rfl
      rw [hsplit, List.length_append]
      omega

theorem length_infoText_lt (info : StreamInfo) : (infoText info).length < infoSize info := by
  have hhead : (infoHead info).length ≤ 32 := by
    have hlen := length_decimal_uint32 info.underValue
    have hvol : "under_vol=".toList.length = 10 := by simp
    have hinfo : ";under_info=".toList.length = 12 := by simp
    unfold infoHead
    rw [List.length_append, List.length_append, hvol, hinfo]
    omega
  have hsettings : (settingsText (writtenSettings info.config)).length ≤
      158 + info.config.na.elim 0 List.length + info.config.spillDir.elim 0 List.length := by
    rw [writtenSettings]
    split
    · refine Nat.le_trans (length_settingsText_le info.config Setting.all) (Nat.le_of_eq ?_)
      simp only [Setting.all, List.foldr_cons, List.foldr_nil, settingRoom]
      omega
    · exact Nat.zero_le _
  rw [infoText, infoSize]
  simp only [List.length_append, List.length_cons]
  omega

/-- The text is written whole: `strSize` is always enough. -/
theorem infoToStr_eq (info : StreamInfo) : infoToStr info = some (infoText info) := by
  have hfits : ([] ++ (infoPieces info).flatten).length < infoSize info := by
    rw [List.nil_append, flatten_infoPieces]
    exact length_infoText_lt info
  have h := foldlM_snprintfAt hfits
  rw [List.nil_append, flatten_infoPieces] at h
  rw [infoToStr]
  exact congrArg (Option.map Prod.fst) h

/-! ## Where a string is cut -/

/-- The strings that are read, and what they mean: the number after `under_vol=`, what stands between the first `{`
and the last `}`, and behind it nothing but settings, of which the last one for a key counts. -/
structure Denotes (str : List Char) (info : StreamInfo) : Prop where
  underValue : scanUnderVol str = some info.underValue
  cut : ∃ before tail as, str = before ++ '{' :: (info.underInfo ++ '}' :: tail) ∧ '{' ∉ before ∧ '}' ∉ tail ∧
    strtok ';' tail = as.map Setting.entry ∧ info.config = lastGiven as

theorem drop_braced (before inner tail : List Char) :
    (before ++ '{' :: (inner ++ '}' :: tail)).drop (before.length + 1) = inner ++ '}' :: tail := by
  have hsplit : before ++ '{' :: (inner ++ '}' :: tail) = (before ++ ['{']) ++ (inner ++ '}' :: tail) := by simp
  rw [hsplit]
  exact List.drop_left' (by simp)

theorem drop_behind (before inner tail : List Char) :
    (before ++ '{' :: (inner ++ '}' :: tail)).drop (before.length + inner.length + 2) = tail := by
  have hsplit : before ++ '{' :: (inner ++ '}' :: tail) = (before ++ '{' :: (inner ++ ['}'])) ++ tail := by simp
  rw [hsplit]
  exact List.drop_left' (by simp; omega)

/-- The first `{` and the last `}`, in this order, and the string around them. -/
theorem braces_iff {str : List Char} {start fin : Nat} :
    (strchr '{' str = some start ∧ strrchr '}' str = some fin ∧ start < fin) ↔
      ∃ before inner tail, str = before ++ '{' :: (inner ++ '}' :: tail) ∧ '{' ∉ before ∧ '}' ∉ tail ∧
        start = before.length ∧ fin = before.length + inner.length + 1 := by
  constructor
  · rintro ⟨hstart, hfin, hlt⟩
    obtain ⟨before, rest, hstr, hbefore, hlen⟩ := eq_append_cons_of_strchr hstart
    obtain ⟨upto, tail, hstr', htail, hlen'⟩ := eq_append_cons_of_strrchr hfin
    -- the opening brace is in front of the closing one
    obtain ⟨inner, rfl⟩ : ∃ inner, upto = before ++ '{' :: inner := by
      rcases List.append_eq_append_iff.mp (hstr.symm.trans hstr') with ⟨u, hu, hrest⟩ | ⟨u, hu, -⟩
      · cases u with
        | nil =>
          simp only [hu, List.append_nil] at hlen'
          omega
        | cons x inner => exact ⟨inner, by rw [hu, (List.cons.inj hrest).1]⟩
      · have hle := congrArg List.length hu
        simp only [List.length_append] at hle
        omega
    refine ⟨before, inner, tail, by simpa using hstr', hbefore, htail, hlen.symm, ?_⟩
    simp only [List.length_append, List.length_cons] at hlen'
    omega
  · rintro ⟨before, inner, tail, rfl, hbefore, htail, rfl, rfl⟩
    have hlast : before ++ '{' :: (inner ++ '}' :: tail) = (before ++ '{' :: inner) ++ '}' :: tail := by simp
    refine ⟨strchr_append_cons hbefore _, ?_, by omega⟩
    rw [hlast, strrchr_append_cons htail, List.length_append, List.length_cons, Nat.add_assoc]

theorem strToInfo_eq_ok_iff {str : List Char} {info : StreamInfo} :
    strToInfo str = .ok info ↔ Denotes str info := by
  constructor
  · intro h
    rw [strToInfo] at h
    split at h
    · cases h
    · rename_i underValue hscan
      split at h
      · rename_i start fin hstart hfin
        split at h
        · rename_i hlt
          obtain ⟨before, inner, tail, rfl, hbefore, htail, rfl, rfl⟩ := braces_iff.mp ⟨hstart, hfin, hlt⟩
          rw [drop_behind] at h
          split at h
          · rename_i c hread
            obtain ⟨as, htoks, hc⟩ := readSettings_eq_some_iff.mp hread
            obtain rfl := InfoParse.ok.inj h
            refine ⟨hscan, before, tail, as, ?_, hbefore, htail, htoks, hc.trans (settled_init as)⟩
            rw [drop_braced]
            simp only [show before.length + inner.length + 1 - before.length - 1 = inner.length by omega,
              List.take_left]
          · cases h
        · cases h
      · cases h
  · rintro ⟨hscan, before, tail, as, hstr, hbefore, htail, htoks, hc⟩
    obtain ⟨underValue, inner, c⟩ := info
    dsimp only at hscan hstr hc
    obtain ⟨hstart, hfin, hlt⟩ := braces_iff.mpr ⟨before, inner, tail, hstr, hbefore, htail, rfl, rfl⟩
    have hread := readSettings_eq_some_iff.mpr ⟨as, htoks, hc.trans (settled_init as).symm⟩
    have htake : (str.drop (before.length + 1)).take (before.length + inner.length + 1 - before.length - 1) = inner := by
      rw [hstr, drop_braced, show before.length + inner.length + 1 - before.length - 1 = inner.length by omega,
        List.take_left]
    have hdrop : str.drop (before.length + inner.length + 1 + 1) = tail := by rw [hstr]; exact drop_behind _ _ _
    rw [strToInfo]
    simp only [hscan, hstart, hfin, if_pos hlt, hdrop, hread, htake]

theorem scanUnderVol_infoText (info : StreamInfo) : scanUnderVol (infoText info) = some info.underValue := by
  have hstarts : infoText info = "under_vol=".toList ++ (decimal info.underValue.toNat ++ (";under_info=".toList ++
      '{' :: (info.underInfo ++ '}' :: settingsText (writtenSettings info.config)))) := by
    unfold infoText infoHead
    simp only [List.append_assoc]
  have hstop : ∀ c ∈ (";under_info=".toList ++ '{' :: (info.underInfo ++ '}' ::
      settingsText (writtenSettings info.config))).head?, c.isDigit = false := by
    intro c hc
    obtain rfl : ';' = c := by simpa using hc
    decide
  have hsubject := subject_decimal info.underValue.toNat hstop
  have hvalue := strtoul_decimal (uint32_le_ullongMax info.underValue) hstop
  have hdigits : (decimal info.underValue.toNat).isEmpty = false := by
    simp [decimal]
  unfold scanUnderVol
  rw [hstarts, if_pos (List.isPrefixOf_iff_prefix.mpr (List.prefix_append _ _)), List.drop_left]
  simp only [hsubject, hvalue, hdigits, UInt32.ofNat_toNat]
  rfl

/-! ## What is written -/

/-- Neither string of the configuration has a character that ends a setting or is taken for the closing brace. -/
def StreamConfig.Plain (c : StreamConfig) : Prop :=
  ∀ v, c.na = some v ∨ c.spillDir = some v → ';' ∉ v ∧ '}' ∉ v

theorem mem_writtenSettings_iff {c : StreamConfig} {s : Setting} {v : List Char} :
    (s, v) ∈ writtenSettings c ↔ c.version ≠ 0 ∧ s.text c = some v := by
  have hversion : 0 < c.version ↔ c.version ≠ 0 := UInt32.pos_iff_ne_zero
  rw [writtenSettings]
  split
  · rename_i h
    rw [mem_written_iff]
    simp [hversion.mp h, Setting.mem_all]
  · rename_i h
    have h0 : c.version = 0 := by simpa [hversion] using h
    simp [h0]

theorem lookupLast_writtenSettings {c : StreamConfig} (h : c.version ≠ 0) (s : Setting) :
    lookupLast (writtenSettings c) s = s.text c := by
  have hkeys : ((Setting.all.map fun s => (s, s.text c)).map (·.1)).Nodup := by
    rw [List.map_map]
    exact (by decide : (Setting.all.map id).Nodup)
  rw [writtenSettings, if_pos (UInt32.pos_iff_ne_zero.mpr h)]
  exact lookupLast_written hkeys (List.mem_map.mpr ⟨s, s.mem_all, rfl⟩)

theorem text_plain {c : StreamConfig} (hc : c.Plain) {s : Setting} {v : List Char} (h : s.text c = some v) :
    ';' ∉ v ∧ '}' ∉ v := by
  have hsigned : ∀ n, ';' ∉ signed n ∧ '}' ∉ signed n := fun n =>
    ⟨not_mem_signed (by decide) (by decide) n, not_mem_signed (by decide) (by decide) n⟩
  have hdecimal : ∀ n, ';' ∉ decimal n ∧ '}' ∉ decimal n := fun n =>
    ⟨not_mem_decimal (by decide) n, not_mem_decimal (by decide) n⟩
  cases s with
  | na => exact hc v (.inl h)
  | spillDir => exact hc v (.inr h)
  | stagePayload | bulkThreshold | overlay =>
    obtain ⟨-, hv⟩ := Option.ite_none_right_eq_some.mp h
    obtain rfl := Option.some.inj hv
    exact hsigned _
  | maxPendingBytes | concentration =>
    obtain ⟨-, hv⟩ := Option.ite_none_right_eq_some.mp h
    obtain rfl := Option.some.inj hv
    exact hdecimal _

theorem strtok_settingsText {as : List (Setting × List Char)} (h : ∀ a ∈ as, ';' ∉ a.2) :
    strtok ';' (settingsText as) = as.map Setting.entry := by
  have htext : settingsText as = (as.map Setting.entry).flatMap (';' :: ·) := by
    rw [settingsText, List.flatMap_map]
  rw [htext]
  refine strtok_flatMap fun t ht => ?_
  obtain ⟨a, ha, rfl⟩ := List.mem_map.mp ht
  refine ⟨by simp [Setting.entry], ?_⟩
  simp [Setting.entry, a.1.key_plain.2.1, h a ha]

theorem brace_mem_settingsText_iff {as : List (Setting × List Char)} :
    '}' ∈ settingsText as ↔ ∃ a ∈ as, '}' ∈ a.2 := by
  simp [settingsText, Setting.entry, Setting.key_plain]

theorem brace_not_mem_infoHead (info : StreamInfo) : '{' ∉ infoHead info := by
  have hdecimal := @not_mem_decimal '{' (by decide) info.underValue.toNat
  unfold infoHead
  simp [hdecimal]

/-! ## Defaults are not written -/

-- the defaults of a configuration are those of a file
theorem applyConfig_init (v : UInt32) :
    applyConfig FileConfig.new { StreamConfig.init with version := v } = FileConfig.new := by
  rw [applyConfig]
  split <;> rfl

theorem effective_eq_of_applied {c c' : StreamConfig}
    (h : applyConfig FileConfig.new c = applyConfig FileConfig.new c') (env : Environ) :
    effective env c = effective env c' := by
  unfold effective
  rw [h]

/-- Only the concentration may differ, and only between values that mean none. -/
theorem effective_congr {c c' : StreamConfig} {fs fs' : FileConfig} (hfs : applyConfig FileConfig.new c = fs)
    (hfs' : applyConfig FileConfig.new c' = fs') (hna : fs.na = fs'.na) (hstage : fs.stagePayload = fs'.stagePayload)
    (hpending : fs.maxPending = fs'.maxPending) (hspill : fs.spillDir = fs'.spillDir)
    (hconcentration : fs.concentration = fs'.concentration ∨ ¬ 1 < fs.concentration ∧ ¬ 1 < fs'.concentration)
    (hbulk : fs.bulkThreshold = fs'.bulkThreshold) (hoverlay : fs.overlay = fs'.overlay) (env : Environ) :
    effective env c = effective env c' := by
  have hfactor : concentrationFactor env fs = concentrationFactor env fs' := by
    rcases hconcentration with h | ⟨h, h'⟩
    · simp only [concentrationFactor, h]
    · have hle : ¬ (1 : Int) < fs.concentration.toNat := by
        simp only [UInt32.lt_iff_toNat_lt] at h
        exact_mod_cast h
      have hle' : ¬ (1 : Int) < fs'.concentration.toNat := by
        simp only [UInt32.lt_iff_toNat_lt] at h'
        exact_mod_cast h'
      unfold concentrationFactor
      cases env "VOL_STREAM_CONCENTRATION" with
      | none => simp only [gt_iff_lt, if_neg hle, if_neg hle']
      | some s =>
        cases s with
        | nil => simp only [gt_iff_lt, if_neg hle, if_neg hle']
        | cons _ _ => rfl
  simp only [effective, hfs, hfs', transportNa, stagePayload, pendingLimit, spillDir, bulkThreshold, overlayEnabled,
    hna, hstage, hpending, hspill, hfactor, hbulk, hoverlay]

section Written

variable {c : StreamConfig} (hc : c.version ≠ 0)

include hc

theorem written_na : (lastGiven (writtenSettings c)).na = c.na :=
  lookupLast_writtenSettings hc .na

theorem written_spillDir : (lastGiven (writtenSettings c)).spillDir = c.spillDir :=
  lookupLast_writtenSettings hc .spillDir

theorem written_stagePayload : (lastGiven (writtenSettings c)).stagePayload =
    if 0 ≤ c.stagePayload then c.stagePayload else -1 := by
  simp only [lastGiven, lookupLast_writtenSettings hc, Setting.text]
  split
  · rename_i h
    rw [Option.map_some, Option.getD_some, atoi_signed (Int32.le_iff_toInt_le.mp h)]
  · rfl

theorem written_overlay : (lastGiven (writtenSettings c)).overlay =
    if 0 ≤ c.overlay then c.overlay else -1 := by
  simp only [lastGiven, lookupLast_writtenSettings hc, Setting.text]
  split
  · rename_i h
    rw [Option.map_some, Option.getD_some, atoi_signed (Int32.le_iff_toInt_le.mp h)]
  · rfl

theorem written_bulkThreshold : (lastGiven (writtenSettings c)).bulkThreshold =
    if 0 ≤ c.bulkThreshold then c.bulkThreshold else -1 := by
  simp only [lastGiven, lookupLast_writtenSettings hc, Setting.text]
  split
  · rename_i h
    have h0 : 0 ≤ c.bulkThreshold.toInt := Int64.le_iff_toInt_le.mp h
    have hlt := c.bulkThreshold.toInt_lt
    rw [Option.map_some, Option.getD_some, strtol_signed h0 (by rw [longMax]; omega), Int64.ofInt_toInt]
  · rfl

theorem written_maxPendingBytes :
    (lastGiven (writtenSettings c)).maxPendingBytes = c.maxPendingBytes := by
  simp only [lastGiven, lookupLast_writtenSettings hc, Setting.text]
  split
  · rw [Option.map_some, Option.getD_some, strtoul_decimal_eq (uint64_le_ullongMax _), UInt64.ofNat_toNat]
  · rename_i h
    have h0 : c.maxPendingBytes = 0 := by simpa [UInt64.pos_iff_ne_zero] using h
    rw [h0]
    rfl

theorem written_concentration : (lastGiven (writtenSettings c)).concentration =
    if 1 < c.concentration then c.concentration else 0 := by
  simp only [lastGiven, lookupLast_writtenSettings hc, Setting.text]
  split
  · rw [Option.map_some, Option.getD_some, strtoul_decimal_eq (uint32_le_ullongMax _), UInt32.ofNat_toNat]
  · rfl

end Written

/-- A configuration read from text counts as given even if nothing was: the defaults do not depend on it. -/
theorem applyConfig_lastGiven (as : List (Setting × List Char)) :
    applyConfig FileConfig.new (lastGiven as) =
      applyConfig FileConfig.new { lastGiven as with version := configVersion } := by
  cases as with
  | nil => exact (applyConfig_init 0).trans (applyConfig_init configVersion).symm
  | cons a as => rfl

/-- What `H5VL_stream_info_to_str` leaves out makes no difference. -/
theorem effective_lastGiven (c : StreamConfig) (env : Environ) :
    effective env (lastGiven (writtenSettings c)) = effective env c := by
  by_cases hc : c.version = 0
  · have hnone : writtenSettings c = [] := by simp [writtenSettings, hc]
    refine effective_eq_of_applied ?_ env
    rw [hnone, applyConfig_lastGiven, applyConfig, applyConfig, if_pos hc]
    rfl
  · have hgiven : configVersion ≠ 0 := by decide
    refine effective_congr ((applyConfig_lastGiven _).trans (if_neg hgiven)) (if_neg hc) (written_na hc) ?_
      (written_maxPendingBytes hc) (written_spillDir hc) ?_ ?_ ?_ env
    · simp only [written_stagePayload hc]
      by_cases h : 0 ≤ c.stagePayload
      · rw [if_pos h]
      · have hneg : c.stagePayload < 0 := Int32.not_le.mp h
        rw [if_neg h, if_pos hneg]
        rfl
    · simp only [written_concentration hc]
      by_cases h : 1 < c.concentration
      · exact .inl (if_pos h)
      · refine .inr ⟨?_, h⟩
        rw [if_neg h]
        decide
    · simp only [written_bulkThreshold hc]
      by_cases h : 0 ≤ c.bulkThreshold
      · rw [if_pos h]
      · have hneg : c.bulkThreshold < 0 := Int64.not_le.mp h
        rw [if_neg h, if_pos hneg]
        rfl
    · simp only [written_overlay hc]
      by_cases h : 0 ≤ c.overlay
      · rw [if_pos h]
      · have hneg : c.overlay ≠ 1 := fun h1 => h (h1 ▸ by decide)
        rw [if_neg h]
        simp [hneg]

/-! ## The round trip -/

/-- The info comes back from its text: the same connector below, and the same settings in any environment. -/
def StreamInfo.Survives (info : StreamInfo) : Prop :=
  ∃ str info', infoToStr info = some str ∧ strToInfo str = .ok info' ∧ info'.underValue = info.underValue ∧
    info'.underInfo = info.underInfo ∧ ∀ env, effective env info'.config = effective env info.config

theorem denotes_infoText {info : StreamInfo} (h : info.config.version = 0 ∨ info.config.Plain) :
    Denotes (infoText info)
      { info with config := lastGiven (writtenSettings info.config) } := by
  have hplain : ∀ a ∈ writtenSettings info.config, ';' ∉ a.2 ∧ '}' ∉ a.2 := by
    intro a ha
    obtain ⟨hversion, htext⟩ := mem_writtenSettings_iff.mp ha
    exact text_plain (h.resolve_left hversion) htext
  have hbrace : '}' ∉ settingsText (writtenSettings info.config) := by
    rw [brace_mem_settingsText_iff]
    rintro ⟨a, ha, hmem⟩
    exact (hplain a ha).2 hmem
  exact ⟨scanUnderVol_infoText info, infoHead info, _, _, rfl, brace_not_mem_infoHead info, hbrace,
    strtok_settingsText fun a ha => (hplain a ha).1, rfl⟩

/-- A value that is read has no `;`, and no `}` since it stands behind the last one. -/
theorem plain_of_token {tail : List Char} {as : List (Setting × List Char)} {s : Setting} {v : List Char}
    (htail : '}' ∉ tail) (htoks : strtok ';' tail = as.map Setting.entry) (h : lookupLast as s = some v) :
    ';' ∉ v ∧ '}' ∉ v := by
  have hentry : Setting.entry (s, v) ∈ strtok ';' tail := htoks ▸ List.mem_map_of_mem (mem_of_lookupLast h)
  have hvalue : ∀ c ∈ v, c ∈ Setting.entry (s, v) := fun c hc => by simp [Setting.entry, hc]
  exact ⟨fun hv => sep_not_mem_token hentry (hvalue _ hv), fun hv => htail (mem_of_mem_token hentry (hvalue _ hv))⟩

theorem Denotes.plain {str : List Char} {info : StreamInfo} (h : Denotes str info) : info.config.Plain := by
  obtain ⟨before, tail, as, -, -, htail, htoks, hconfig⟩ := h.cut
  rintro v (hv | hv)
  · rw [hconfig] at hv
    exact plain_of_token htail htoks hv
  · rw [hconfig] at hv
    exact plain_of_token htail htoks hv

theorem survives_of_plain {info : StreamInfo} (h : info.config.version = 0 ∨ info.config.Plain) : info.Survives :=
  ⟨infoText info, _, infoToStr_eq info, strToInfo_eq_ok_iff.mpr (denotes_infoText h), rfl, rfl,
    effective_lastGiven info.config⟩

theorem na_of_applied {c : StreamConfig} {v : List Char} (h : (applyConfig FileConfig.new c).na = some v) :
    c.na = some v := by
  rw [applyConfig] at h
  split at h
  · cases h
  · exact h

theorem spillDir_of_applied {c : StreamConfig} {v : List Char} (h : (applyConfig FileConfig.new c).spillDir = some v) :
    c.spillDir = some v := by
  rw [applyConfig] at h
  split at h
  · cases h
  · exact h

/-- The strings of a configuration are those it is read back with, unless the one read is the default. -/
theorem plain_of_effective {c c' : StreamConfig} (hc : c.version ≠ 0) (hplain : c'.Plain)
    (heq : ∀ env, effective env c' = effective env c) : c.Plain := by
  have hunset := heq fun _ => none
  have happlied : (applyConfig FileConfig.new c).na = c.na ∧ (applyConfig FileConfig.new c).spillDir = c.spillDir := by
    rw [applyConfig, if_neg hc]
    exact ⟨rfl, rfl⟩
  rintro v (hna | hspill)
  · have hread := congrArg Settings.transportNa hunset
    simp only [effective, transportNa, Option.none_or, happlied.1, hna] at hread
    exact hplain v (.inl (na_of_applied hread))
  · have hread := congrArg Settings.spillDir hunset
    simp only [effective, spillDir, Option.none_or, happlied.2, hspill, Option.getD_some] at hread
    cases happ : (applyConfig FileConfig.new c').spillDir with
    | none =>
      rw [happ, Option.getD_none] at hread
      rw [← hread]
      decide
    | some w =>
      rw [happ, Option.getD_some] at hread
      subst hread
      exact hplain w (.inr (spillDir_of_applied happ))

/-- An info survives being written and read exactly if no configuration was given or its strings are plain. -/
theorem survives_iff (info : StreamInfo) : info.Survives ↔ info.config.version = 0 ∨ info.config.Plain := by
  constructor
  · rintro ⟨str, info', -, hok, -, -, heq⟩
    by_cases hc : info.config.version = 0
    · exact .inl hc
    · exact .inr (plain_of_effective hc (strToInfo_eq_ok_iff.mp hok).plain heq)
  · exact survives_of_plain

/-- A string is read exactly if it has the form, as what it denotes, and what was read survives being written and read
again. -/
theorem strToInfo_iff_denotes (str : List Char) (info : StreamInfo) :
    strToInfo str = .ok info ↔ Denotes str info ∧ info.Survives := by
  rw [strToInfo_eq_ok_iff]
  exact ⟨fun h => ⟨h, survives_of_plain (.inr h.plain)⟩, And.left⟩

end VolStream
