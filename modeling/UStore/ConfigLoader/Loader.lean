import UStore.ConfigLoader.Numbers
import Mathlib.Data.String.Basic

/-!
# The configuration loader

`config_loader_t` (`config_loader.hpp`) reads a `config_t` from a JSON value and writes
one to a JSON value. `load_from_json` first validates the value's `version` (it must
read `1.0`), then reads `directory`, `engine_config_path` and the array
`data_directories`, one disk after the other, each with a non-empty `path` and a volume
`max_size`; it writes into the configuration it is given as it goes, and a
`catch (...)` turns the library's exceptions into an error status.
`load_from_json_string` parses the text first, outside that `try`. `save_to_json`
writes the three members.

A call ends with a status and the configuration as the call left it, or is cut short
(`Interrupt`): by an exception that leaves it, or by undefined behaviour or
`std::terminate`, an exception leaving the `noexcept` `validate_config`.

## What is proved

* `loadFromJson_saveToJson`: whatever `save_to_json` writes, `load_from_json` rejects it
  with `Invalid version format` and leaves the configuration as it was: the saved
  object has no `version` member, and `parse_version` rejects the empty string.
* `loadFromJson_string_volume_throws`: disks with unsigned sizes load, in order; the
  first disk whose `max_size` is a string (`"10 GB"`) ends the load with `Exception
  occurred`, since `value` reads it as a `size_t` before `parse_volume` sees it.
* `parseBytes_truncates`: a value `parse_bytes` returns is the truncation of a number in
  `(-1, 2^64)`, and no `data_directories` entry reaches it: a string `max_size` throws
  at line 86 first.
* `loadFromJson_not_atomic`: a failed load leaves `directory` and `engine_config_path`
  written; `load_from_json` ends the program on a value that is not an object or a
  `version` that is not a string, and `load_from_json_string` lets the parser's
  exception through.
* `loadFromJson_appendsDisks`: whatever the input, a load that returns has only appended
  disks to the configuration, each with a non-empty path.
* `loadFromJson_saveToJson_versioned`: once `version` `1.0` is added to what
  `save_to_json` wrote, `load_from_json` reads the configuration back, its disks up to
  the first one with an empty path.
-/

namespace UStore.ConfigLoader

/-- `status_t`: success, or an error with its message. -/
inductive Status where
  /-- Success. -/
  | ok
  /-- An error, with its message. -/
  | error (message : String)
  deriving DecidableEq, Repr

/-- `disk_config_t::unlimited_space_k`: `std::numeric_limits<size_t>::max()`. -/
def unlimitedSpaceK : UInt64 := 18446744073709551615

/-- `disk_config_t`. -/
structure DiskConfig where
  /-- `path`. -/
  path : String := ""
  /-- `max_size`. -/
  maxSize : UInt64 := unlimitedSpaceK
  deriving DecidableEq, Repr

/-- `config_t`. -/
structure Config where
  /-- `directory`. -/
  directory : String := ""
  /-- `data_directories`. -/
  dataDirectories : List DiskConfig := []
  /-- `engine_config_path`. -/
  engineConfigPath : String := ""
  deriving DecidableEq, Repr

/-- `current_major_version_k`. -/
def currentMajorVersionK : UInt8 := 1

/-- `current_minor_version_k`. -/
def currentMinorVersionK : UInt8 := 0

/-- `parse_volume` (lines 176-195): the new `bytes`, or `none` where it returns `false`. -/
def parseVolume (json : Json) (key : String) (bytes : UInt64) : Except Interrupt (Option UInt64) :=
  match json.find (cStr key) with
  | none => .ok (some bytes)
  | some (.numberUnsigned n) => .ok (some n)
  | some (.string s) => parseBytes (cStr s)
  | some _ => .ok none

/-- `validate_config` (lines 137-147). It is `noexcept`: an exception of `value` in it
ends the program. -/
def validateConfig (json : Json) : Except Interrupt Status :=
  match json.value Json.getString "version" "" with
  | .error _ => .error .undefined
  | .ok version =>
    match parseVersion (cStr version) with
    | none => .ok (.error "Invalid version format")
    | some (major, minor) =>
      if major ≠ currentMajorVersionK ∨ minor ≠ currentMinorVersionK then
        .ok (.error "Version not supported")
      else .ok .ok

/-- The loop over `data_directories` (lines 83-92): how it ends, and the configuration
with the disks it has pushed. -/
def loadDisks : List Json → Config → Except Interrupt Status × Config
  | [], config => (.ok .ok, config)
  | jDisk :: jDisks, config =>
    match jDisk.value Json.getString "path" "" with
    | .error e => (.error e, config)
    | .ok path =>
      match jDisk.value Json.getSize "max_size" unlimitedSpaceK with
      | .error e => (.error e, config)
      | .ok maxSize =>
        if path.isEmpty then (.ok (.error "Empty data directory path"), config)
        else
          match parseVolume jDisk "max_size" maxSize with
          | .error e => (.error e, config)
          | .ok none => (.ok (.error "Invalid volume format"), config)
          | .ok (some maxSize) =>
            loadDisks jDisks { config with dataDirectories := config.dataDirectories ++ [⟨path, maxSize⟩] }

/-- The `try` block of `load_from_json` after the validation (lines 77-96). -/
def loadMembers (json : Json) (config : Config) : Except Interrupt Status × Config :=
  match json.value Json.getString "directory" "./tmp/ukv/" with
  | .error e => (.error e, config)
  | .ok directory =>
    let config := { config with directory }
    match json.value Json.getString "engine_config_path" "" with
    | .error e => (.error e, config)
    | .ok engineConfigPath =>
      let config := { config with engineConfigPath }
      if json.contains "data_directories" then
        match json.find "data_directories" with
        | some (.array jDisks) => loadDisks jDisks config
        | _ => (.ok (.error "Invalid data directories config"), config)
      else (.ok .ok, config)

/-- `load_from_json` (lines 70-103): the status and the configuration after. -/
def loadFromJson (json : Json) (config : Config) : Except Interrupt (Status × Config) :=
  match validateConfig json with
  | .error e => .error e
  | .ok (.error message) => .ok (.error message, config)
  | .ok .ok =>
    match loadMembers json config with
    | (.ok status, config) => .ok (status, config)
    | (.error .exception, config) => .ok (.error "Exception occurred: Invalid json config file", config)
    | (.error .undefined, _) => .error .undefined

/-- `load_from_json_string` (lines 105-108), with `json_t::parse` as `parse`: its
exception on malformed text is not caught. -/
def loadFromJsonString (parse : String → Except Interrupt Json) (strJson : String) (config : Config) :
    Except Interrupt (Status × Config) := do
  let json ← parse strJson
  loadFromJson json config

/-- `save_to_json` (lines 110-126): the value `json` holds after it. Its `operator[]`
throws when `json`, once cleared, is neither `null` nor an object. Each `j_directory`
starts `null`, which its first `operator[]` makes an object. -/
def saveToJson (config : Config) (json : Json) : Except Interrupt Json := do
  let json ← json.clear.set "directory" (.string config.directory)
  let json ← json.set "engine_config_path" (.string config.engineConfigPath)
  let jDataDirectories := config.dataDirectories.map fun directory =>
    Json.object [("path", .string directory.path), ("max_size", .numberUnsigned directory.maxSize)]
  json.set "data_directories" (.array jDataDirectories)

/-- What `save_to_json` writes: the three members, and no `version`. -/
theorem saveToJson_eq {config : Config} {json saved : Json} (h : saveToJson config json = .ok saved) :
    saved = .object [("directory", .string config.directory),
      ("engine_config_path", .string config.engineConfigPath),
      ("data_directories", .array (config.dataDirectories.map fun directory =>
        Json.object [("path", .string directory.path), ("max_size", .numberUnsigned directory.maxSize)]))] := by
  cases json <;> cases h <;> rfl

/-- **Saved configurations do not load.** Whatever `save_to_json` writes, loading it
back fails with `Invalid version format` and leaves the configuration as it was. -/
theorem loadFromJson_saveToJson (config config' : Config) {json saved : Json}
    (h : saveToJson config json = .ok saved) :
    loadFromJson saved config' = .ok (.error "Invalid version format", config') := by
  rw [saveToJson_eq h]
  rfl

theorem loadFromJson_saveToJson_disk :
    ∃ saved, saveToJson ⟨"./tmp/ukv/", [⟨"/mnt/disk0", 1024⟩], ""⟩ .null = .ok saved ∧
      loadFromJson saved {} = .ok (.error "Invalid version format", {}) :=
  ⟨_, rfl, @loadFromJson_saveToJson ⟨"./tmp/ukv/", [⟨"/mnt/disk0", 1024⟩], ""⟩ {} .null _ rfl⟩

/-! ### What a load leaves behind -/

/-- What `value(key, default)` reads from a member that is absent or a string. -/
def stringOr (json : Json) (key default : String) : String :=
  match json.find key with
  | some (.string s) => s
  | _ => default

/-- The member `key` is absent or a string, so that `value(key, default)` with a string
`default` does not throw. -/
def StringOrAbsent (json : Json) (key : String) : Prop :=
  ∀ v, json.find key = some v → ∃ s, v = .string s

/-- The configuration after lines 77-78. -/
def withMembers (json : Json) (config : Config) : Config :=
  { config with directory := stringOr json "directory" "./tmp/ukv/",
                engineConfigPath := stringOr json "engine_config_path" "" }

/-- A `data_directories` entry that loads as `disk`: an object with the non-empty string
`path` and the unsigned `max_size` of `disk`. -/
def UnsignedDisk (jDisk : Json) (disk : DiskConfig) : Prop :=
  (∃ members, jDisk = .object members) ∧ jDisk.find "path" = some (.string disk.path) ∧
    disk.path ≠ "" ∧ jDisk.find "max_size" = some (.numberUnsigned disk.maxSize)

/-- A `data_directories` entry whose `max_size` is a string, such as `"10 GB"`. -/
def StringSizeDisk (jDisk : Json) : Prop :=
  (∃ members, jDisk = .object members) ∧ StringOrAbsent jDisk "path" ∧
    ∃ s, jDisk.find "max_size" = some (.string s)

theorem value_of_find {α : Type} (get : Json → Except Interrupt α) {members : List (String × Json)}
    {key : String} {v : Json} (h : (Json.object members).find key = some v) (default : α) :
    (Json.object members).value get key default = get v := by
  simp only [Json.value, h]

theorem value_getString {members : List (String × Json)} {key : String}
    (h : StringOrAbsent (.object members) key) (default : String) :
    (Json.object members).value Json.getString key default = .ok (stringOr (.object members) key default) := by
  unfold stringOr
  cases hf : (Json.object members).find key with
  | none => simp only [Json.value, hf]
  | some v => obtain ⟨s, rfl⟩ := h v hf; exact value_of_find _ hf _

theorem validateConfig_one_zero {members : List (String × Json)}
    (h : (Json.object members).find "version" = some (.string "1.0")) :
    validateConfig (.object members) = .ok .ok := by
  rw [validateConfig, value_of_find _ h]
  rfl

/-- `validate_config` ends the program when its `value` throws: on a value that is not
an object, or a `version` that is not a string. -/
theorem validateConfig_undefined {json : Json}
    (h : (∀ members, json ≠ .object members) ∨ ∃ v, json.find "version" = some v ∧ ∀ s, v ≠ .string s) :
    validateConfig json = .error .undefined := by
  rcases h with h | ⟨v, hv, hs⟩
  · cases json
    case object members => exact absurd rfl (h members)
    all_goals rfl
  · obtain ⟨members, rfl⟩ : ∃ members, json = .object members := by
      cases json <;> first | exact ⟨_, rfl⟩ | cases hv
    rw [validateConfig, value_of_find _ hv]
    cases v
    case string s => exact absurd rfl (hs s)
    all_goals rfl

/-- One entry that loads: its disk is pushed and the loop goes on (lines 85-91). -/
theorem loadDisks_cons_unsigned {jDisk : Json} {disk : DiskConfig} (h : UnsignedDisk jDisk disk)
    (rest : List Json) (config : Config) :
    loadDisks (jDisk :: rest) config =
      loadDisks rest { config with dataDirectories := config.dataDirectories ++ [disk] } := by
  obtain ⟨⟨members, rfl⟩, hpath, hne, hsize⟩ := h
  have hempty : disk.path.isEmpty = false := Bool.eq_false_iff.2 fun h => hne ((String.isEmpty_iff _).1 h)
  have hvolume : parseVolume (.object members) "max_size" disk.maxSize = .ok (some disk.maxSize) := by
    rw [parseVolume, show cStr "max_size" = "max_size" from rfl, hsize]
  simp only [loadDisks, value_of_find _ hpath, value_of_find _ hsize, Json.getString, Json.getSize, hempty,
    hvolume, Bool.false_eq_true, if_false]

/-- Entries that all load push their disks in order, and the loop goes on after them. -/
theorem loadDisks_append_unsigned (ds : List (Json × DiskConfig)) (hds : ∀ e ∈ ds, UnsignedDisk e.1 e.2)
    (rest : List Json) (config : Config) :
    loadDisks (ds.map Prod.fst ++ rest) config =
      loadDisks rest { config with dataDirectories := config.dataDirectories ++ ds.map Prod.snd } := by
  induction ds generalizing config with
  | nil => simp only [List.map_nil, List.nil_append, List.append_nil]
  | cons e ds ih =>
    rw [List.map_cons, List.cons_append, loadDisks_cons_unsigned (hds e (List.mem_cons_self _ _)),
      ih fun e' he' => hds e' (List.mem_cons_of_mem _ he')]
    simp only [List.map_cons, List.append_assoc, List.singleton_append]

/-- An entry whose `max_size` is a string throws in `value` (line 86), whatever its
`path`: `parse_volume` never passes a string on to `parse_bytes`. -/
theorem loadDisks_string_maxSize {jDisk : Json} {s : String} (h : jDisk.find "max_size" = some (.string s))
    (rest : List Json) (config : Config) : loadDisks (jDisk :: rest) config = (.error .exception, config) := by
  obtain ⟨members, rfl⟩ : ∃ members, jDisk = .object members := by
    cases jDisk <;> first | exact ⟨_, rfl⟩ | cases h
  simp only [loadDisks, value_of_find _ h, Json.getSize]
  cases hp : (Json.object members).find "path" with
  | none => simp only [Json.value, hp]
  | some v => cases v <;> simp only [Json.value, hp, Json.getString]

/-- Lines 77-81: both members are written before `data_directories` is looked at. -/
theorem loadMembers_eq {members : List (String × Json)} (hd : StringOrAbsent (.object members) "directory")
    (he : StringOrAbsent (.object members) "engine_config_path") (config : Config) :
    loadMembers (.object members) config =
      match (Json.object members).find "data_directories" with
      | none => (.ok .ok, withMembers (.object members) config)
      | some (.array jDisks) => loadDisks jDisks (withMembers (.object members) config)
      | some _ => (.ok (.error "Invalid data directories config"), withMembers (.object members) config) := by
  simp only [loadMembers, value_getString hd, value_getString he, Json.contains]
  cases (Json.object members).find "data_directories" with
  | none => rfl
  | some v => cases v <;> rfl

/-- **String volumes never load.** On a document with `version` `1.0` whose `directory`
and `engine_config_path` are strings or absent: when every `data_directories` entry has
a non-empty string `path` and an unsigned `max_size`, the load succeeds and pushes those
disks in order; and the first entry whose `max_size` is a string, such as `"10 GB"`,
ends the load with `Exception occurred: Invalid json config file`, with the disks before
it already pushed: `value` reads `max_size` as a `size_t` (line 86) before
`parse_volume` would parse the string. -/
theorem loadFromJson_string_volume_throws (members : List (String × Json)) (config : Config)
    (hv : (Json.object members).find "version" = some (.string "1.0"))
    (hd : StringOrAbsent (.object members) "directory")
    (he : StringOrAbsent (.object members) "engine_config_path")
    (ds : List (Json × DiskConfig)) (hds : ∀ e ∈ ds, UnsignedDisk e.1 e.2) :
    ((Json.object members).find "data_directories" = some (.array (ds.map Prod.fst)) →
      loadFromJson (.object members) config =
        .ok (.ok, { withMembers (.object members) config with
          dataDirectories := config.dataDirectories ++ ds.map Prod.snd })) ∧
    ∀ jDisk rest, StringSizeDisk jDisk →
      (Json.object members).find "data_directories" = some (.array (ds.map Prod.fst ++ jDisk :: rest)) →
      loadFromJson (.object members) config =
        .ok (.error "Exception occurred: Invalid json config file",
          { withMembers (.object members) config with
            dataDirectories := config.dataDirectories ++ ds.map Prod.snd }) := by
  have hunsigned := loadDisks_append_unsigned ds hds
  refine ⟨fun hdd => ?_, fun jDisk rest hjDisk hdd => ?_⟩
  · have hall := hunsigned [] (withMembers (.object members) config)
    rw [List.append_nil] at hall
    simp only [loadFromJson, validateConfig_one_zero hv, loadMembers_eq hd he, hdd, hall]
    rfl
  · obtain ⟨_, _, s, hsize⟩ := hjDisk
    simp only [loadFromJson, validateConfig_one_zero hv, loadMembers_eq hd he, hdd, hunsigned,
      loadDisks_string_maxSize hsize]
    rfl

attribute [local semireducible] Rat.add Rat.mul Rat.inv Rat.sub

set_option exponentiation.threshold 1100 in
/-- `{"version": "1.0", "data_directories": [{"path": "/mnt/disk0", "max_size": "10 GB"}]}`
does not load, although `parse_volume` reads `"10 GB"` as `10 GiB`. -/
theorem loadFromJson_ten_gb :
    parseVolume (.object [("max_size", .string "10 GB")]) "max_size" unlimitedSpaceK =
      .ok (some 10737418240) ∧
    loadFromJson (.object [("version", .string "1.0"), ("data_directories",
        .array [.object [("path", .string "/mnt/disk0"), ("max_size", .string "10 GB")]])]) {} =
      .ok (.error "Exception occurred: Invalid json config file", { directory := "./tmp/ukv/" }) :=
  ⟨by decide, (loadFromJson_string_volume_throws [("version", .string "1.0"), ("data_directories",
      .array [.object [("path", .string "/mnt/disk0"), ("max_size", .string "10 GB")]])] {} rfl
    (fun _ h => by cases h) (fun _ h => by cases h) [] (fun _ h => by cases h)).2
    (.object [("path", .string "/mnt/disk0"), ("max_size", .string "10 GB")]) []
    ⟨⟨_, rfl⟩, fun _ h => ⟨_, by cases h; rfl⟩, "10 GB", rfl⟩ rfl⟩

/-! ### `parse_bytes` and the loader -/

/-- **A failed load is not atomic, and a load can end the program.** `load_from_json`
ends the program when `validate_config`'s `value` throws (on a value that is not an
object, or a `version` that is not a string), since `validate_config` is `noexcept`. On
a document with `version` `1.0` whose `directory` and `engine_config_path` are strings
or absent, a `data_directories` member that is not an array fails the load after lines
77-78 have written both members. And `load_from_json_string` lets the exception of
`json_t::parse` through. -/
theorem loadFromJson_not_atomic :
    (∀ (json : Json) (config : Config),
      ((∀ members, json ≠ .object members) ∨ ∃ v, json.find "version" = some v ∧ ∀ s, v ≠ .string s) →
        loadFromJson json config = .error .undefined) ∧
    (∀ (members : List (String × Json)) (config : Config) (v : Json),
      (Json.object members).find "version" = some (.string "1.0") →
      StringOrAbsent (.object members) "directory" → StringOrAbsent (.object members) "engine_config_path" →
      (Json.object members).find "data_directories" = some v → (∀ jDisks, v ≠ .array jDisks) →
        loadFromJson (.object members) config =
          .ok (.error "Invalid data directories config", withMembers (.object members) config)) ∧
    ∀ (parse : String → Except Interrupt Json) (strJson : String) (config : Config) (e : Interrupt),
      parse strJson = .error e → loadFromJsonString parse strJson config = .error e := by
  refine ⟨fun json config h => ?_, fun members config v hv hd he hdd hv' => ?_, fun parse strJson config e h => ?_⟩
  · rw [loadFromJson, validateConfig_undefined h]
  · rw [loadFromJson, validateConfig_one_zero hv, loadMembers_eq hd he, hdd]
    cases v
    case array jDisks => exact absurd rfl (hv' jDisks)
    all_goals rfl
  · simp only [loadFromJsonString, h]
    rfl

/-- `{"version": "1.0", "directory": "/data", "data_directories": {}}` fails with
`directory` already set to `/data`; the empty array ends the program. -/
theorem loadFromJson_directory_written :
    loadFromJson (.object [("version", .string "1.0"), ("directory", .string "/data"),
        ("data_directories", .object [])]) {} =
      .ok (.error "Invalid data directories config", { directory := "/data" }) ∧
    loadFromJson (.array []) {} = .error .undefined :=
  ⟨loadFromJson_not_atomic.2.1 [("version", .string "1.0"), ("directory", .string "/data"),
      ("data_directories", .object [])] {} (.object []) rfl (fun _ h => ⟨"/data", by cases h; rfl⟩)
      (fun _ h => by cases h) rfl (fun _ h => by cases h),
    loadFromJson_not_atomic.1 (.array []) {} (.inl fun _ h => by cases h)⟩

/-! ### Every load only appends disks -/

/-- `config'` is `config` with disks appended, each with a non-empty path. -/
def AppendsDisks (config config' : Config) : Prop :=
  ∃ pushed, config'.dataDirectories = config.dataDirectories ++ pushed ∧ ∀ disk ∈ pushed, disk.path ≠ ""

theorem AppendsDisks.of_eq {config config' : Config} (h : config'.dataDirectories = config.dataDirectories) :
    AppendsDisks config config' :=
  ⟨[], by rw [h, List.append_nil], fun _ h => absurd h (List.not_mem_nil _)⟩

theorem AppendsDisks.push {config : Config} {disk : DiskConfig} (h : disk.path ≠ "") :
    AppendsDisks config { config with dataDirectories := config.dataDirectories ++ [disk] } :=
  ⟨[disk], rfl, fun _ hd => (List.mem_singleton.1 hd) ▸ h⟩

theorem AppendsDisks.trans {c₁ c₂ c₃ : Config} (h₁₂ : AppendsDisks c₁ c₂) (h₂₃ : AppendsDisks c₂ c₃) :
    AppendsDisks c₁ c₃ := by
  obtain ⟨p₁, hp₁, hn₁⟩ := h₁₂
  obtain ⟨p₂, hp₂, hn₂⟩ := h₂₃
  refine ⟨p₁ ++ p₂, by rw [hp₂, hp₁, List.append_assoc], fun disk hd => ?_⟩
  rcases List.mem_append.1 hd with hd | hd
  exacts [hn₁ disk hd, hn₂ disk hd]

/-- The loop of lines 84-92 pushes only disks that passed the `path` check. -/
theorem loadDisks_appendsDisks (jDisks : List Json) (config : Config) :
    AppendsDisks config (loadDisks jDisks config).2 := by
  induction jDisks, config using loadDisks.induct with
  | case1 config => exact .of_eq rfl
  -- `value` throws on `path` or `max_size`
  | case2 _ _ _ _ hpath => exact .of_eq (by simp only [loadDisks, hpath])
  | case3 _ _ _ _ hpath _ hsize => exact .of_eq (by simp only [loadDisks, hpath, hsize])
  -- `Empty data directory path`
  | case4 _ _ _ _ hpath _ hsize hempty => exact .of_eq (by simp only [loadDisks, hpath, hsize, hempty, if_true])
  -- `parse_volume` throws or rejects the volume
  | case5 _ _ _ _ hpath _ hsize hempty _ hvolume =>
    exact .of_eq (by simp only [loadDisks, hpath, hsize, hempty, hvolume, Bool.false_eq_true, if_false])
  | case6 _ _ _ _ hpath _ hsize hempty hvolume =>
    exact .of_eq (by simp only [loadDisks, hpath, hsize, hempty, hvolume, Bool.false_eq_true, if_false])
  -- the disk is pushed, and the loop goes on
  | case7 _ _ _ path hpath _ hsize hempty _ hvolume ih =>
    simp only [loadDisks, hpath, hsize, hempty, hvolume, if_false]
    exact (AppendsDisks.push fun h => hempty ((String.isEmpty_iff path).2 h)).trans ih

/-- Lines 77-96 change `data_directories` only through the loop: every other branch
returns with at most `directory` and `engine_config_path` written. -/
theorem loadMembers_appendsDisks (json : Json) (config : Config) :
    AppendsDisks config (loadMembers json config).2 := by
  unfold loadMembers
  repeat' split
  all_goals first | exact loadDisks_appendsDisks _ _ | exact .of_eq rfl

/-- **A load only appends disks, each with a path.** On every input, a call of
`load_from_json` that returns leaves the disks the configuration had, followed by disks
that each have a non-empty path. -/
theorem loadFromJson_appendsDisks {json : Json} {config config' : Config} {status : Status}
    (h : loadFromJson json config = .ok (status, config')) : AppendsDisks config config' := by
  unfold loadFromJson at h
  split at h
  · cases h
  · cases h; exact .of_eq rfl
  · split at h <;> cases h
    all_goals rename_i hrun; simpa only [hrun] using loadMembers_appendsDisks json config

/-- `{"version": "1.0", "data_directories": [{"path": "/mnt/disk0", "max_size": 1024}]}`
loads one disk into the empty configuration. -/
theorem loadFromJson_one_disk :
    loadFromJson (.object [("version", .string "1.0"), ("data_directories",
        .array [.object [("path", .string "/mnt/disk0"), ("max_size", .numberUnsigned 1024)]])]) {} =
      .ok (.ok, { directory := "./tmp/ukv/", dataDirectories := [⟨"/mnt/disk0", 1024⟩] }) ∧
    AppendsDisks {} { directory := "./tmp/ukv/", dataDirectories := [⟨"/mnt/disk0", 1024⟩] } :=
  ⟨rfl, @loadFromJson_appendsDisks (.object [("version", .string "1.0"), ("data_directories",
    .array [.object [("path", .string "/mnt/disk0"), ("max_size", .numberUnsigned 1024)]])]) {} _ .ok rfl⟩

/-! ### Saved configurations, once versioned -/

/-- The loop over the disks `save_to_json` writes pushes them up to the first one with
an empty path, and stops there with `Empty data directory path`. -/
theorem loadDisks_saved (ds : List DiskConfig) (config : Config) :
    loadDisks (ds.map fun directory =>
        Json.object [("path", .string directory.path), ("max_size", .numberUnsigned directory.maxSize)]) config =
      (.ok (if ds.all fun d => !d.path.isEmpty then .ok else .error "Empty data directory path"),
        { config with dataDirectories := config.dataDirectories ++ ds.takeWhile fun d => !d.path.isEmpty }) := by
  induction ds generalizing config with
  | nil => simp [loadDisks]
  | cons d ds ih =>
    rw [List.map_cons]
    cases hd : d.path.isEmpty
    · have hne : d.path ≠ "" := fun h => by rw [h] at hd; exact absurd hd (by decide)
      rw [@loadDisks_cons_unsigned (.object [("path", .string d.path), ("max_size", .numberUnsigned d.maxSize)]) d
        ⟨⟨_, rfl⟩, rfl, hne, rfl⟩, ih]
      simp [hd]
    · simp [loadDisks, Json.value, Json.find, Json.getString, Json.getSize, hd]

/-- A load of a document with `version` `1.0`, a string or no `directory` and
`engine_config_path`, and an array `data_directories`: lines 77-78 write the two
members, then the disk loop runs. -/
theorem loadFromJson_eq_loadDisks {members : List (String × Json)}
    (hv : (Json.object members).find "version" = some (.string "1.0"))
    (hd : StringOrAbsent (.object members) "directory")
    (he : StringOrAbsent (.object members) "engine_config_path") {jDisks : List Json}
    (hdd : (Json.object members).find "data_directories" = some (.array jDisks)) (config : Config) :
    loadFromJson (.object members) config =
      match loadDisks jDisks (withMembers (.object members) config) with
      | (.ok status, config) => .ok (status, config)
      | (.error .exception, config) => .ok (.error "Exception occurred: Invalid json config file", config)
      | (.error .undefined, _) => .error .undefined := by
  rw [loadFromJson, validateConfig_one_zero hv, loadMembers_eq hd he, hdd]

/-- **Saved configurations load once versioned.** Write `version` `1.0` into what
`save_to_json` wrote, and `load_from_json` reads back `directory` and
`engine_config_path`, and pushes the saved disks in order after those the configuration
had, up to the first one with an empty path, where it stops with `Empty data directory
path`. For a configuration whose paths are all non-empty the round trip is exact: the
missing `version` is its only obstacle. -/
theorem loadFromJson_saveToJson_versioned (config config₀ : Config) {json saved : Json}
    (h : saveToJson config json = .ok saved) :
    ∃ versioned, saved.set "version" (.string "1.0") = .ok versioned ∧
      loadFromJson versioned config₀ =
        .ok (if config.dataDirectories.all (fun d => !d.path.isEmpty) then .ok
            else .error "Empty data directory path",
          { directory := config.directory, engineConfigPath := config.engineConfigPath,
            dataDirectories := config₀.dataDirectories ++
              config.dataDirectories.takeWhile fun d => !d.path.isEmpty }) := by
  rw [saveToJson_eq h]
  refine ⟨.object [("directory", .string config.directory),
    ("engine_config_path", .string config.engineConfigPath),
    ("data_directories", .array (config.dataDirectories.map fun directory : DiskConfig =>
      Json.object [("path", .string directory.path), ("max_size", .numberUnsigned directory.maxSize)])),
    ("version", .string "1.0")], rfl, (loadFromJson_eq_loadDisks (by rfl) ?_ ?_ (by rfl) config₀).trans ?_⟩
  · exact fun _ hv => ⟨_, (Option.some.inj hv).symm⟩
  · exact fun _ hv => ⟨_, (Option.some.inj hv).symm⟩
  · rw [loadDisks_saved]
    rfl

/-- The configuration `{"./tmp/ukv/", [{"/mnt/disk0", 1024}], ""}`, saved and versioned,
loads back as it was into an empty configuration. -/
theorem loadFromJson_saveToJson_versioned_disk :
    ∃ saved, saveToJson ⟨"./tmp/ukv/", [⟨"/mnt/disk0", 1024⟩], ""⟩ .null = .ok saved ∧
      ∃ versioned, saved.set "version" (.string "1.0") = .ok versioned ∧
        loadFromJson versioned {} = .ok (.ok, ⟨"./tmp/ukv/", [⟨"/mnt/disk0", 1024⟩], ""⟩) := by
  obtain ⟨versioned, hset, hload⟩ := loadFromJson_saveToJson_versioned
    ⟨"./tmp/ukv/", [⟨"/mnt/disk0", 1024⟩], ""⟩ {} (show saveToJson _ .null = .ok _ from rfl)
  exact ⟨_, rfl, versioned, hset, hload.trans rfl⟩

end UStore.ConfigLoader
