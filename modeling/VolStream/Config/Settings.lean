import VolStream.Lib.Scanning

/-!
# The settings of a file

`H5VL_stream_config_t` travels in the connector info of a file access list. A file keeps its own copy, unless no
configuration was given, and an environment variable of the same meaning overrides each setting where it is used:
`effective` collects what the connector then works with.
-/

namespace VolStream

open CString

/-- `H5VL_stream_config_t`. -/
@[ext]
structure StreamConfig where
  version : UInt32
  na : Option (List Char)
  stagePayload : Int32
  maxPendingBytes : UInt64
  spillDir : Option (List Char)
  concentration : UInt32
  bulkThreshold : Int64
  overlay : Int32
deriving DecidableEq

-- `H5VL_STREAM_CONFIG_VERSION`
def configVersion : UInt32 := 1

-- `H5VL_stream_config_init`
def StreamConfig.init : StreamConfig where
  version := configVersion
  na := none
  stagePayload := -1
  maxPendingBytes := 0
  spillDir := none
  concentration := 0
  bulkThreshold := -1
  overlay := -1

/-- The `cfg_` fields of `H5VL_stream_file_state_t`. -/
structure FileConfig where
  na : Option (List Char)
  stagePayload : Int32
  maxPending : UInt64
  spillDir : Option (List Char)
  concentration : UInt32
  bulkThreshold : Int64
  overlay : Bool
deriving DecidableEq

-- as `H5VL__stream_file_state_new` leaves them
def FileConfig.new : FileConfig where
  na := none
  stagePayload := -1
  maxPending := 0
  spillDir := none
  concentration := 0
  bulkThreshold := -1
  overlay := false

-- `H5VL__stream_apply_config`
def applyConfig (fs : FileConfig) (c : StreamConfig) : FileConfig :=
  if c.version = 0 then fs
  else
    { na := c.na
      stagePayload := if c.stagePayload < 0 then -1 else if c.stagePayload ≠ 0 then 1 else 0
      maxPending := c.maxPendingBytes
      spillDir := c.spillDir
      concentration := c.concentration
      bulkThreshold := if c.bulkThreshold < 0 then -1 else c.bulkThreshold
      overlay := c.overlay == 1 }

/-- `getenv`: a variable that is set has a value, which may be empty. -/
abbrev Environ := String → Option (List Char)

-- `H5VL__stream_transport_na`
def transportNa (env : Environ) (fs : FileConfig) : Option (List Char) := (env "VOL_STREAM_NA").or fs.na

-- `H5VL__stream_spill_dir`
def spillDir (env : Environ) (fs : FileConfig) : List Char :=
  ((env "VOL_STREAM_SPILL_DIR").or fs.spillDir).getD "/tmp".toList

-- the first characters that mean "no"
def startsOff (s : List Char) : Bool :=
  s.head?.any fun c => c == '0' || c == 'n' || c == 'N' || c == 'f' || c == 'F'

-- `H5VL__stream_stage_payload`
def stagePayload (env : Environ) (fs : FileConfig) : Bool :=
  match env "VOL_STREAM_STAGE_PAYLOAD" with
  | some s => !startsOff s
  | none => !(fs.stagePayload == 0)

-- `H5VL__stream_pending_limit`: a value that is not a number is as good as none
def pendingLimit (env : Environ) (fs : FileConfig) : UInt64 :=
  match (env "VOL_STREAM_MAX_PENDING_BYTES").bind strtoull with
  | some v => UInt64.ofNat v
  | none => fs.maxPending

-- `H5VL__stream_concentration_factor`
def concentrationFactor (env : Environ) (fs : FileConfig) : Int32 :=
  let v : Int :=
    match env "VOL_STREAM_CONCENTRATION" with
    | none | some [] => fs.concentration.toNat
    | some s => strtol s
  if v > 1 then Int32.ofInt v else 1

-- `vs_tr_bulk_threshold`, on what `vs_tr_set_bulk_threshold` stored
def bulkThreshold (env : Environ) (fs : FileConfig) : UInt64 :=
  match (env "VOL_STREAM_BULK_THRESHOLD").bind strtoull with
  | some v => UInt64.ofNat v
  | none => if 0 ≤ fs.bulkThreshold then UInt64.ofNat fs.bulkThreshold.toInt.toNat else 64 * 1024

-- `H5VL__stream_overlay_enabled`
def overlayEnabled (env : Environ) (fs : FileConfig) : Bool :=
  match env "VOL_STREAM_OVERLAY" with
  | some s => !(s.isEmpty || startsOff s)
  | none => fs.overlay

/-- What the connector works with. -/
structure Settings where
  transportNa : Option (List Char)
  stagePayload : Bool
  pendingLimit : UInt64
  spillDir : List Char
  concentrationFactor : Int32
  bulkThreshold : UInt64
  overlayEnabled : Bool
deriving DecidableEq

/-- The settings of a file created or opened with the configuration. -/
def effective (env : Environ) (c : StreamConfig) : Settings :=
  let fs := applyConfig FileConfig.new c
  { transportNa := transportNa env fs
    stagePayload := stagePayload env fs
    pendingLimit := pendingLimit env fs
    spillDir := spillDir env fs
    concentrationFactor := concentrationFactor env fs
    bulkThreshold := bulkThreshold env fs
    overlayEnabled := overlayEnabled env fs }

end VolStream
