import BitcoinNode.BlocksDownload
import BitcoinNode.HeadersDownload
import BitcoinNode.Lib.Lines
import BitcoinNode.MessageFraming

/-! The configuration file. Its lines name settings and give them values; how many were loaded is counted,
and which of them is not looked at. -/
namespace BitcoinNode.Settings

open Str

def amountOfAttributes : Nat := 23

/-- The configuration of the node. -/
structure Config where
  numberOfNodes : Nat
  dnsSeed : String
  connectToDnsNodes : Bool
  customNodesIps : List String
  netPort : UInt16
  startString : U8Array 4
  protocolVersion : Int32
  userAgent : String
  nThreads : Nat
  connectTimeout : UInt64
  maxConnectionsToServer : UInt8
  errorLogPath : String
  infoLogPath : String
  messageLogPath : String
  blocksDownloadPerNode : Nat
  firstBlockDate : String
  dateFormat : String
  headersInDisk : Nat
  readHeadersFromDisk : Bool
  ibdSingleNode : Bool
  heightFirstBlockToDownload : Nat
  headersFile : String
  logsFolderPath : String

namespace Config

def headers (config : Config) : HeadersConfig :=
  ⟨config.protocolVersion, config.headersInDisk, config.firstBlockDate, config.dateFormat⟩

def blocks (config : Config) : BitcoinNode.Config :=
  ⟨config.nThreads, config.blocksDownloadPerNode, config.heightFirstBlockToDownload⟩

def unset : Config where
  numberOfNodes := 0
  dnsSeed := ""
  connectToDnsNodes := true
  customNodesIps := []
  netPort := 0
  startString := U8Array.replicate 4 0
  protocolVersion := 0
  userAgent := ""
  nThreads := 0
  connectTimeout := 0
  maxConnectionsToServer := 0
  errorLogPath := ""
  infoLogPath := ""
  messageLogPath := ""
  blocksDownloadPerNode := 0
  firstBlockDate := ""
  dateFormat := ""
  headersInDisk := 0
  readHeadersFromDisk := false
  ibdSingleNode := false
  heightFirstBlockToDownload := 0
  headersFile := ""
  logsFolderPath := ""

def startStringFromStr (value : String) : Outcome String (U8Array 4) := do
  let startString ← i32FromStr value
  return ⟨(i32ToLeBytes startString).reverse, by simp⟩

/-- One of the branches of `loadSetting`: the value is parsed, stored and counted. -/
def loaded (numberOfSettingsLoaded : Nat) (parsed : Outcome String α) (store : α → Config) :
    Outcome String (Config × Nat) := do
  let value ← parsed
  return (store value, numberOfSettingsLoaded + 1)

def loadSetting (config : Config) (name value : String) (numberOfSettingsLoaded : Nat) :
    Outcome String (Config × Nat) :=
  let loaded {α : Type} (parsed : Outcome String α) := loaded numberOfSettingsLoaded parsed
  match name with
  | "NUMBER_OF_NODES" => loaded (usizeFromStr value) fun numberOfNodes => { config with numberOfNodes }
  | "DNS_SEED" => loaded (.ok value) fun dnsSeed => { config with dnsSeed }
  | "CONNECT_TO_DNS_NODES" =>
    loaded (boolFromStr value) fun connectToDnsNodes => { config with connectToDnsNodes }
  | "CUSTOM_NODES_IPS" =>
    -- an empty value leaves what is there
    if value.isEmpty then loaded (.ok ()) fun _ => config
    else loaded (.ok (split ',' value)) fun customNodesIps => { config with customNodesIps }
  | "NET_PORT" => loaded (u16FromStr value) fun netPort => { config with netPort }
  | "START_STRING" => loaded (startStringFromStr value) fun startString => { config with startString }
  | "PROTOCOL_VERSION" => loaded (i32FromStr value) fun protocolVersion => { config with protocolVersion }
  | "USER_AGENT" => loaded (.ok value) fun userAgent => { config with userAgent }
  | "N_THREADS" => loaded (usizeFromStr value) fun nThreads => { config with nThreads }
  | "CONNECT_TIMEOUT" => loaded (u64FromStr value) fun connectTimeout => { config with connectTimeout }
  | "MAX_CONNECTIONS" =>
    loaded (u8FromStr value) fun maxConnectionsToServer => { config with maxConnectionsToServer }
  | "ERROR_LOG_PATH" => loaded (.ok value) fun errorLogPath => { config with errorLogPath }
  | "INFO_LOG_PATH" => loaded (.ok value) fun infoLogPath => { config with infoLogPath }
  | "MESSAGE_LOG_PATH" => loaded (.ok value) fun messageLogPath => { config with messageLogPath }
  | "BLOCKS_DOWNLOAD_PER_NODE" =>
    loaded (usizeFromStr value) fun blocksDownloadPerNode => { config with blocksDownloadPerNode }
  | "DATE_FIRST_BLOCK_TO_DOWNLOAD" =>
    loaded (.ok value) fun firstBlockDate => { config with firstBlockDate }
  | "DATE_FORMAT" => loaded (.ok value) fun dateFormat => { config with dateFormat }
  | "AMOUNT_OF_HEADERS_TO_STORE_IN_DISK" =>
    loaded (usizeFromStr value) fun headersInDisk => { config with headersInDisk }
  | "READ_HEADERS_FROM_DISK" =>
    loaded (boolFromStr value) fun readHeadersFromDisk => { config with readHeadersFromDisk }
  | "DOWNLOAD_FULL_BLOCKCHAIN_FROM_SINGLE_NODE" =>
    loaded (boolFromStr value) fun ibdSingleNode => { config with ibdSingleNode }
  | "HEIGHT_FIRST_BLOCK_TO_DOWNLOAD" =>
    loaded (usizeFromStr value) fun heightFirstBlockToDownload =>
      { config with heightFirstBlockToDownload }
  | "HEADERS_FILE" => loaded (.ok value) fun headersFile => { config with headersFile }
  | "LOGS_FOLDER" => loaded (.ok value) fun logsFolderPath => { config with logsFolderPath }
  | _ => Outcome.fail ("Invalid config setting name: " ++ name)

def checkNumberOfAttributes (numberOfSettingsLoaded : Nat) : Outcome String Unit :=
  if numberOfSettingsLoaded ≠ amountOfAttributes then
    Outcome.fail "Invalid quantity of lines in file config"
  else .ok ()

def readLine (line : List UInt8) : Outcome String String :=
  Outcome.mapErr (fun _ => "stream did not contain valid UTF-8") (fromUtf8 line)

def loadLines : (lines : List (List UInt8)) → Config → (numberOfSettingsLoaded : Nat) →
    Outcome String (Config × Nat)
  | [], config, numberOfSettingsLoaded => .ok (config, numberOfSettingsLoaded)
  | line :: lines, config, numberOfSettingsLoaded => do
    let currentLine ← readLine line
    if currentLine.toList.head? = some '#' then loadLines lines config numberOfSettingsLoaded
    else
      match split '=' currentLine with
      | [name, value] => do
        let (config, numberOfSettingsLoaded) ← loadSetting config name value numberOfSettingsLoaded
        loadLines lines config numberOfSettingsLoaded
      | _ => Outcome.fail ("Invalid config input: " ++ currentLine)

def fromReader (content : List UInt8) : Outcome String Config := do
  let (config, numberOfSettingsLoaded) ← loadLines (lines content) unset 0
  checkNumberOfAttributes numberOfSettingsLoaded
  return config

end Config

/-- A setting, by the field that it is for. -/
inductive Setting where
  | numberOfNodes
  | dnsSeed
  | connectToDnsNodes
  | customNodesIps
  | netPort
  | startString
  | protocolVersion
  | userAgent
  | nThreads
  | connectTimeout
  | maxConnectionsToServer
  | errorLogPath
  | infoLogPath
  | messageLogPath
  | blocksDownloadPerNode
  | firstBlockDate
  | dateFormat
  | headersInDisk
  | readHeadersFromDisk
  | ibdSingleNode
  | heightFirstBlockToDownload
  | headersFile
  | logsFolderPath
  deriving DecidableEq

namespace Setting

def all : List Setting := [numberOfNodes, dnsSeed, connectToDnsNodes, customNodesIps, netPort, startString,
  protocolVersion, userAgent, nThreads, connectTimeout, maxConnectionsToServer, errorLogPath, infoLogPath,
  messageLogPath, blocksDownloadPerNode, firstBlockDate, dateFormat, headersInDisk, readHeadersFromDisk,
  ibdSingleNode, heightFirstBlockToDownload, headersFile, logsFolderPath]

theorem mem_all (s : Setting) : s ∈ all := by cases s <;> decide

theorem nodup_all : all.Nodup := by decide

def name : Setting → String
  | numberOfNodes => "NUMBER_OF_NODES"
  | dnsSeed => "DNS_SEED"
  | connectToDnsNodes => "CONNECT_TO_DNS_NODES"
  | customNodesIps => "CUSTOM_NODES_IPS"
  | netPort => "NET_PORT"
  | startString => "START_STRING"
  | protocolVersion => "PROTOCOL_VERSION"
  | userAgent => "USER_AGENT"
  | nThreads => "N_THREADS"
  | connectTimeout => "CONNECT_TIMEOUT"
  | maxConnectionsToServer => "MAX_CONNECTIONS"
  | errorLogPath => "ERROR_LOG_PATH"
  | infoLogPath => "INFO_LOG_PATH"
  | messageLogPath => "MESSAGE_LOG_PATH"
  | blocksDownloadPerNode => "BLOCKS_DOWNLOAD_PER_NODE"
  | firstBlockDate => "DATE_FIRST_BLOCK_TO_DOWNLOAD"
  | dateFormat => "DATE_FORMAT"
  | headersInDisk => "AMOUNT_OF_HEADERS_TO_STORE_IN_DISK"
  | readHeadersFromDisk => "READ_HEADERS_FROM_DISK"
  | ibdSingleNode => "DOWNLOAD_FULL_BLOCKCHAIN_FROM_SINGLE_NODE"
  | heightFirstBlockToDownload => "HEIGHT_FIRST_BLOCK_TO_DOWNLOAD"
  | headersFile => "HEADERS_FILE"
  | logsFolderPath => "LOGS_FOLDER"

theorem name_injective {s t : Setting} (same : s.name = t.name) : s = t :=
  List.inj_on_of_nodup_map (show (all.map name).Nodup by decide +kernel) (mem_all s) (mem_all t) same

def Holds (config : Config) (value : String) : Setting → Prop
  | numberOfNodes => usizeFromStr value = .ok config.numberOfNodes
  | dnsSeed => value = config.dnsSeed
  | connectToDnsNodes => boolFromStr value = .ok config.connectToDnsNodes
  | customNodesIps => (if value.isEmpty then [] else split ',' value) = config.customNodesIps
  | netPort => u16FromStr value = .ok config.netPort
  | startString => Config.startStringFromStr value = .ok config.startString
  | protocolVersion => i32FromStr value = .ok config.protocolVersion
  | userAgent => value = config.userAgent
  | nThreads => usizeFromStr value = .ok config.nThreads
  | connectTimeout => u64FromStr value = .ok config.connectTimeout
  | maxConnectionsToServer => u8FromStr value = .ok config.maxConnectionsToServer
  | errorLogPath => value = config.errorLogPath
  | infoLogPath => value = config.infoLogPath
  | messageLogPath => value = config.messageLogPath
  | blocksDownloadPerNode => usizeFromStr value = .ok config.blocksDownloadPerNode
  | firstBlockDate => value = config.firstBlockDate
  | dateFormat => value = config.dateFormat
  | headersInDisk => usizeFromStr value = .ok config.headersInDisk
  | readHeadersFromDisk => boolFromStr value = .ok config.readHeadersFromDisk
  | ibdSingleNode => boolFromStr value = .ok config.ibdSingleNode
  | heightFirstBlockToDownload => usizeFromStr value = .ok config.heightFirstBlockToDownload
  | headersFile => value = config.headersFile
  | logsFolderPath => value = config.logsFolderPath

def Accepts (s : Setting) (value : String) : Prop := ∃ config, s.Holds config value

/-- What the branch for a setting does to the configuration. -/
structure Stores (s : Setting) (value : String) (config config' : Config) : Prop where
  holds : s.Holds config' value ∨ s = customNodesIps ∧ value = "" ∧ config' = config
  others : ∀ t ≠ s, ∀ v, t.Holds config' v ↔ t.Holds config v

theorem Stores.accepts {s : Setting} {value : String} {config config' : Config}
    (stores : s.Stores value config config') : s.Accepts value := by
  rcases stores.holds with holds | ⟨rfl, rfl, _⟩
  · exact ⟨_, holds⟩
  · exact ⟨.unset, rfl⟩

end Setting

namespace Config

theorem loaded_eq_ok {parsed : Outcome String α} {store : α → Config} {config : Config} {n n' : Nat} :
    loaded n parsed store = .ok (config, n') ↔ ∃ value, parsed = .ok value ∧ config = store value ∧ n' = n + 1 := by
  rw [loaded, Outcome.bind_eq_ok]
  refine exists_congr fun value => and_congr_right fun _ => ?_
  rw [Outcome.pure_eq, Except.ok.injEq, Prod.mk.injEq, eq_comm, eq_comm (a := n + 1)]

theorem loaded_stores {s : Setting} {config config' : Config} {parsed : Outcome String α} {store : α → Config}
    {value : String} {n n' : Nat} (load : loaded n parsed store = .ok (config', n'))
    (holds : ∀ v, parsed = .ok v → s.Holds (store v) value)
    (others : ∀ v, ∀ t ≠ s, ∀ w, t.Holds (store v) w ↔ t.Holds config w := by
      intro v t different w
      cases t <;> first | exact Iff.rfl | exact absurd rfl different) :
    ∃ s' : Setting, s.name = s'.name ∧ n' = n + 1 ∧ s'.Stores value config config' := by
  obtain ⟨v, parsed, rfl, rfl⟩ := loaded_eq_ok.mp load
  exact ⟨s, rfl, rfl, .inl (holds v parsed), others v⟩

theorem load_setting_ok {config config' : Config} {name value : String} {n n' : Nat}
    (load : config.loadSetting name value n = .ok (config', n')) :
    ∃ s : Setting, name = s.name ∧ n' = n + 1 ∧ s.Stores value config config' := by
  unfold loadSetting at load
  dsimp only at load
  split at load
  case h_1 => exact loaded_stores (s := .numberOfNodes) load fun _ => id
  case h_2 => exact loaded_stores (s := .dnsSeed) load fun _ => Except.ok.inj
  case h_3 => exact loaded_stores (s := .connectToDnsNodes) load fun _ => id
  case h_4 =>
    by_cases empty : value.isEmpty = true
    · rw [if_pos empty] at load
      obtain ⟨_, _, rfl, rfl⟩ := loaded_eq_ok.mp load
      exact ⟨.customNodesIps, rfl, rfl, .inr ⟨rfl, String.isEmpty_iff.mp empty, rfl⟩, fun _ _ _ => Iff.rfl⟩
    · rw [if_neg empty] at load
      exact loaded_stores (s := .customNodesIps) load fun v parsed => (if_neg empty).trans (Except.ok.inj parsed)
  case h_5 => exact loaded_stores (s := .netPort) load fun _ => id
  case h_6 => exact loaded_stores (s := .startString) load fun _ => id
  case h_7 => exact loaded_stores (s := .protocolVersion) load fun _ => id
  case h_8 => exact loaded_stores (s := .userAgent) load fun _ => Except.ok.inj
  case h_9 => exact loaded_stores (s := .nThreads) load fun _ => id
  case h_10 => exact loaded_stores (s := .connectTimeout) load fun _ => id
  case h_11 => exact loaded_stores (s := .maxConnectionsToServer) load fun _ => id
  case h_12 => exact loaded_stores (s := .errorLogPath) load fun _ => Except.ok.inj
  case h_13 => exact loaded_stores (s := .infoLogPath) load fun _ => Except.ok.inj
  case h_14 => exact loaded_stores (s := .messageLogPath) load fun _ => Except.ok.inj
  case h_15 => exact loaded_stores (s := .blocksDownloadPerNode) load fun _ => id
  case h_16 => exact loaded_stores (s := .firstBlockDate) load fun _ => Except.ok.inj
  case h_17 => exact loaded_stores (s := .dateFormat) load fun _ => Except.ok.inj
  case h_18 => exact loaded_stores (s := .headersInDisk) load fun _ => id
  case h_19 => exact loaded_stores (s := .readHeadersFromDisk) load fun _ => id
  case h_20 => exact loaded_stores (s := .ibdSingleNode) load fun _ => id
  case h_21 => exact loaded_stores (s := .heightFirstBlockToDownload) load fun _ => id
  case h_22 => exact loaded_stores (s := .headersFile) load fun _ => Except.ok.inj
  case h_23 => exact loaded_stores (s := .logsFolderPath) load fun _ => Except.ok.inj
  case h_24 => cases load

theorem load_setting_accepts {s : Setting} {config held : Config} {value : String} {n : Nat}
    (holds : s.Holds held value) : ∃ config', config.loadSetting s.name value n = .ok (config', n + 1) := by
  cases s
  case customNodesIps =>
    by_cases empty : value.isEmpty = true
    · exact ⟨config, (if_pos empty).trans rfl⟩
    · exact ⟨{ config with customNodesIps := split ',' value }, (if_neg empty).trans rfl⟩
  case dnsSeed | userAgent | errorLogPath | infoLogPath | messageLogPath | firstBlockDate
      | dateFormat | headersFile | logsFolderPath => exact ⟨_, rfl⟩
  all_goals exact ⟨_, loaded_eq_ok.mpr ⟨_, holds, rfl, rfl⟩⟩

end Config

def Comment (line : List UInt8) : Prop := ∃ text, fromUtf8 line = .ok text ∧ text.toList.head? = some '#'

def Sets (line : List UInt8) (s : Setting) (value : String) : Prop :=
  ∃ text, fromUtf8 line = .ok text ∧ text.toList.head? ≠ some '#' ∧ split '=' text = [s.name, value]

/-- Lines that are comments or settings, and the settings in their order. -/
inductive Written : (lines : List (List UInt8)) → List (Setting × String) → Prop
  | nil : Written [] []
  | comment : Comment line → Written rest pairs → Written (line :: rest) pairs
  | sets : Sets line s value → Written rest pairs → Written (line :: rest) ((s, value) :: pairs)

theorem Sets.unique {line : List UInt8} {s s' : Setting} {value value' : String} (sets : Sets line s value)
    (sets' : Sets line s' value') : s = s' ∧ value = value' := by
  obtain ⟨text, read, _, parts⟩ := sets
  obtain ⟨text', read', _, parts'⟩ := sets'
  obtain rfl := Except.ok.inj (read.symm.trans read')
  obtain ⟨names, values⟩ := List.cons.inj (parts.symm.trans parts')
  exact ⟨Setting.name_injective names, (List.cons.inj values).1⟩

theorem Sets.not_comment {line : List UInt8} {s : Setting} {value : String} (sets : Sets line s value) :
    ¬Comment line := by
  obtain ⟨text, read, setting, _⟩ := sets
  rintro ⟨text', read', comment⟩
  obtain rfl := Except.ok.inj (read.symm.trans read')
  exact setting comment

theorem Written.mem_iff {lines : List (List UInt8)} {pairs : List (Setting × String)} (written : Written lines pairs)
    {s : Setting} {value : String} : (s, value) ∈ pairs ↔ ∃ line ∈ lines, Sets line s value := by
  induction written with
  | nil => simp
  | comment skipped _ ih =>
    rw [ih, List.exists_mem_cons_iff]
    exact (or_iff_right fun sets => sets.not_comment skipped).symm
  | sets here _ ih =>
    rw [List.mem_cons, ih, List.exists_mem_cons_iff]
    refine or_congr_left ⟨fun same => ?_, fun sets => ?_⟩
    · obtain ⟨rfl, rfl⟩ := Prod.mk.inj same
      exact here
    · obtain ⟨rfl, rfl⟩ := sets.unique here
      rfl

namespace Config

theorem accepts_of_load {s : Setting} {value : String} (load : (unset.loadSetting s.name value 0).isOk = true) :
    s.Accepts value := by
  rcases loaded : unset.loadSetting s.name value 0 with e | ⟨config, n⟩
  · rw [loaded] at load
    cases load
  · obtain ⟨t, same, _, stores⟩ := load_setting_ok loaded
    obtain rfl := Setting.name_injective same
    exact stores.accepts

/-- The settings of a file, stored one after the other. -/
def Loads : (pairs : List (Setting × String)) → Config → Config → Prop
  | [], config, config' => config' = config
  | (s, value) :: pairs, config, config' => ∃ next, s.Stores value config next ∧ Loads pairs next config'

theorem Loads.accepts {pairs : List (Setting × String)} {config config' : Config} (loads : Loads pairs config config') :
    ∀ pair ∈ pairs, pair.1.Accepts pair.2 := by
  induction pairs generalizing config with
  | nil => exact fun _ member => absurd member List.not_mem_nil
  | cons pair pairs ih =>
    obtain ⟨next, stores, loads⟩ := loads
    exact List.forall_mem_cons.mpr ⟨stores.accepts, ih loads⟩

theorem read_line_ok {line : List UInt8} {text : String} : readLine line = .ok text ↔ fromUtf8 line = .ok text := by
  rw [readLine]
  rcases fromUtf8 line with (_ | _ | _) | _ <;> simp [Outcome.mapErr, Outcome.fail, Outcome.panic, Outcome.abort]

theorem load_lines_ok {lines : List (List UInt8)} {config config' : Config} {n n' : Nat}
    (load : loadLines lines config n = .ok (config', n')) :
    ∃ pairs, Written lines pairs ∧ n' = n + pairs.length ∧ Loads pairs config config' := by
  induction lines generalizing config n with
  | nil =>
    obtain ⟨rfl, rfl⟩ := Prod.mk.inj (Except.ok.inj load)
    exact ⟨[], .nil, rfl, rfl⟩
  | cons line lines ih =>
    obtain ⟨text, read, load⟩ := Outcome.bind_eq_ok.mp load
    replace read := read_line_ok.mp read
    by_cases comment : text.toList.head? = some '#'
    · rw [if_pos comment] at load
      obtain ⟨pairs, written, count, loads⟩ := ih load
      exact ⟨pairs, .comment ⟨text, read, comment⟩ written, count, loads⟩
    · rw [if_neg comment] at load
      split at load
      case h_1 name value parts =>
        obtain ⟨⟨next, m⟩, stored, load⟩ := Outcome.bind_eq_ok.mp load
        obtain ⟨s, rfl, rfl, stores⟩ := load_setting_ok stored
        obtain ⟨pairs, written, count, loads⟩ := ih load
        refine ⟨(s, value) :: pairs, .sets ⟨text, read, comment, parts⟩ written, ?_, next, stores, loads⟩
        rw [count, List.length_cons]
        omega
      case h_2 => cases load

/-- Settings whose values can be parsed are loaded, whatever they are and in whatever order they stand. -/
theorem load_lines_accepts {lines : List (List UInt8)} {pairs : List (Setting × String)}
    (written : Written lines pairs) (accepted : ∀ pair ∈ pairs, pair.1.Accepts pair.2) (config : Config) (n : Nat) :
    ∃ config', loadLines lines config n = .ok (config', n + pairs.length) := by
  induction written generalizing config n with
  | nil => exact ⟨config, rfl⟩
  | comment skipped _ ih =>
    obtain ⟨text, read, comment⟩ := skipped
    rw [loadLines, read_line_ok.mpr read, Outcome.bind_ok, if_pos comment]
    exact ih accepted config n
  | @sets line s value rest pairs here _ ih =>
    obtain ⟨text, read, setting, parts⟩ := here
    obtain ⟨⟨held, holds⟩, others⟩ := List.forall_mem_cons.mp accepted
    obtain ⟨next, stored⟩ := load_setting_accepts holds
    obtain ⟨config', loaded⟩ := ih others next (n + 1)
    refine ⟨config', ?_⟩
    rw [loadLines, read_line_ok.mpr read, Outcome.bind_ok, if_neg setting, parts]
    dsimp only
    rw [stored, Outcome.bind_ok, loaded, List.length_cons, Nat.add_assoc, Nat.add_comm 1]

/-- A setting holds the value of one of its lines, or what it held before the first line. -/
def Loaded (pairs : List (Setting × String)) (config : Config) : Prop :=
  ∀ s : Setting, (∃ value, (s, value) ∈ pairs ∧ s.Holds config value) ∨
    (∀ value, (s, value) ∉ pairs) ∧ ∀ value, s.Holds config value ↔ s.Holds unset value

theorem Loaded.store {pairs : List (Setting × String)} {config config' : Config} (loaded : Loaded pairs config)
    {s : Setting} {value : String} (stores : s.Stores value config config') :
    Loaded (pairs ++ [(s, value)]) config' := by
  intro t
  by_cases same : t = s
  · subst same
    rcases stores.holds with holds | ⟨rfl, rfl, rfl⟩
    · exact .inl ⟨value, by simp, holds⟩
    · rcases loaded .customNodesIps with ⟨before, member, holds⟩ | ⟨_, unset⟩
      · exact .inl ⟨before, List.mem_append_left _ member, holds⟩
      · exact .inl ⟨"", by simp, (unset "").mpr rfl⟩
  · rcases loaded t with ⟨before, member, holds⟩ | ⟨absent, unset⟩
    · exact .inl ⟨before, List.mem_append_left _ member, (stores.others t same before).mpr holds⟩
    · refine .inr ⟨fun v member => ?_, fun v => (stores.others t same v).trans (unset v)⟩
      rcases List.mem_append.mp member with before | here
      · exact absent v before
      · exact same (Prod.mk.inj (List.mem_singleton.mp here)).1

theorem Loaded.run {before pairs : List (Setting × String)} {config config' : Config} (loaded : Loaded before config)
    (loads : Loads pairs config config') : Loaded (before ++ pairs) config' := by
  induction pairs generalizing before config with
  | nil =>
    obtain rfl := loads
    rwa [List.append_nil]
  | cons pair pairs ih =>
    obtain ⟨next, stores, loads⟩ := loads
    have := ih (loaded.store stores) loads
    rwa [List.append_assoc, List.singleton_append] at this

theorem Loads.loaded {pairs : List (Setting × String)} {config : Config} (loads : Loads pairs unset config) :
    Loaded pairs config :=
  Loaded.run (fun _ => .inr ⟨fun _ => List.not_mem_nil, fun _ => Iff.rfl⟩) loads

theorem from_reader_ok {content : List UInt8} {config : Config} (read : fromReader content = .ok config) :
    ∃ pairs, Written (lines content) pairs ∧ pairs.length = amountOfAttributes ∧ Loads pairs unset config := by
  obtain ⟨⟨config', n⟩, load, read⟩ := Outcome.bind_eq_ok.mp read
  obtain ⟨_, checked, same⟩ := Outcome.bind_eq_ok.mp read
  obtain rfl := Except.ok.inj same
  obtain ⟨pairs, written, count, loads⟩ := load_lines_ok load
  rw [checkNumberOfAttributes] at checked
  split_ifs at checked with amount
  · cases checked
  · exact ⟨pairs, written, by omega, loads⟩

theorem from_reader_accepts {content : List UInt8} {pairs : List (Setting × String)}
    (written : Written (lines content) pairs) (accepted : ∀ pair ∈ pairs, pair.1.Accepts pair.2)
    (amount : pairs.length = amountOfAttributes) : ∃ config, fromReader content = .ok config := by
  obtain ⟨config, loaded⟩ := load_lines_accepts written accepted unset 0
  refine ⟨config, ?_⟩
  rw [fromReader, loaded, Outcome.bind_ok]
  dsimp only
  rw [checkNumberOfAttributes, if_neg (by omega)]
  rfl

/-- A file that is accepted names every setting, and every field holds the value of a line that names it. -/
def NamesAll (content : List UInt8) : Prop :=
  ∀ config, fromReader content = .ok config → ∀ s : Setting, ∃ line ∈ lines content, ∃ value,
    Sets line s value ∧ s.Holds config value

/-- Comments and as many settings as there are fields, each with a value that can be parsed; and one of
the settings is there twice. -/
def Repeats (content : List UInt8) : Prop :=
  ∃ pairs, Written (lines content) pairs ∧ (∀ pair ∈ pairs, pair.1.Accepts pair.2) ∧
    pairs.length = amountOfAttributes ∧ ¬(pairs.map Prod.fst).Nodup

/-- So many settings are all of them exactly when none is repeated. -/
theorem all_named_iff {named : List Setting} (amount : named.length = amountOfAttributes) :
    (∀ s : Setting, s ∈ named) ↔ named.Nodup := by
  have size : Setting.all.length = named.length := by rw [amount]; rfl
  constructor
  · intro each
    have part : Setting.all.Subperm named := List.subperm_of_subset Setting.nodup_all fun s _ => each s
    exact (part.perm_of_length_le size.ge).nodup Setting.nodup_all
  · intro apart s
    have part : named.Subperm Setting.all := List.subperm_of_subset apart fun s _ => s.mem_all
    exact (part.perm_of_length_le size.le).mem_iff.mpr s.mem_all

/-- The count stands for the settings exactly in files in which none is there twice. -/
theorem from_reader_names_all (content : List UInt8) : NamesAll content ↔ ¬Repeats content := by
  constructor
  · rintro all ⟨pairs, written, accepted, amount, twice⟩
    obtain ⟨config, read⟩ := from_reader_accepts written accepted amount
    refine twice ((all_named_iff (by rwa [List.length_map])).mp fun s => ?_)
    obtain ⟨line, member, value, sets, _⟩ := all config read s
    exact List.mem_map_of_mem (written.mem_iff.mpr ⟨line, member, sets⟩)
  · intro once config read s
    obtain ⟨pairs, written, amount, loads⟩ := from_reader_ok read
    have apart : (pairs.map Prod.fst).Nodup := by
      by_contra twice
      exact once ⟨pairs, written, loads.accepts, amount, twice⟩
    obtain ⟨⟨t, value⟩, member, rfl⟩ := List.mem_map.mp ((all_named_iff (by rwa [List.length_map])).mpr apart s)
    rcases loads.loaded t with ⟨value, member, holds⟩ | ⟨absent, _⟩
    · obtain ⟨line, inside, sets⟩ := written.mem_iff.mp member
      exact ⟨line, inside, value, sets, holds⟩
    · exact absurd member (absent value)

end Config

def lineOf (pair : Setting × String) : List UInt8 := (pair.1.name ++ "=" ++ pair.2).toUTF8.toList

def fileOf (pairs : List (Setting × String)) : List UInt8 := (pairs.map lineOf).flatMap (· ++ [0x0a])

/-- A value that fits in its line and can be parsed. -/
def Plain (pair : Setting × String) : Prop :=
  '=' ∉ pair.2.toList ∧ 0x0a ∉ lineOf pair ∧ (lineOf pair).getLast? ≠ some 0x0d ∧
    (Config.unset.loadSetting pair.1.name pair.2 0).isOk = true

instance : DecidablePred Plain := fun _ => inferInstanceAs (Decidable (_ ∧ _))

theorem Setting.name_plain (s : Setting) :
    '=' ∉ s.name.toList ∧ s.name.toList ≠ [] ∧ s.name.toList.head? ≠ some '#' := by
  have each : ∀ s ∈ all, '=' ∉ s.name.toList ∧ s.name.toList ≠ [] ∧ s.name.toList.head? ≠ some '#' := by decide +kernel
  exact each s s.mem_all

theorem Plain.sets {pair : Setting × String} (plain : Plain pair) : Sets (lineOf pair) pair.1 pair.2 := by
  obtain ⟨apart, nonempty, setting⟩ := pair.1.name_plain
  refine ⟨_, from_utf8_text _, ?_, split_pair apart plain.1⟩
  rwa [String.append_assoc, String.toList_append, List.head?_append_of_ne_nil _ nonempty]

theorem written_file_of {pairs : List (Setting × String)} (plain : ∀ pair ∈ pairs, Plain pair) :
    Written (lines (fileOf pairs)) pairs := by
  have whole : ∀ line ∈ pairs.map lineOf, 0x0a ∉ line ∧ line.getLast? ≠ some 0x0d :=
    List.forall_mem_map.mpr fun pair member => ⟨(plain pair member).2.1, (plain pair member).2.2.1⟩
  rw [fileOf, lines_written whole]
  clear whole
  induction pairs with
  | nil => exact .nil
  | cons pair pairs ih =>
    obtain ⟨first, others⟩ := List.forall_mem_cons.mp plain
    exact .sets first.sets (ih others)

theorem Config.from_reader_file_of {pairs : List (Setting × String)} (plain : ∀ pair ∈ pairs, Plain pair)
    (amount : pairs.length = amountOfAttributes) :
    ∃ config, fromReader (fileOf pairs) = .ok config ∧ Loaded pairs config := by
  have written := written_file_of plain
  obtain ⟨config, read⟩ := from_reader_accepts written
    (fun pair member => accepts_of_load (plain pair member).2.2.2) amount
  obtain ⟨pairs', written', _, loads⟩ := from_reader_ok read
  have same (s : Setting) (value : String) : (s, value) ∈ pairs' ↔ (s, value) ∈ pairs :=
    written'.mem_iff.trans written.mem_iff.symm
  refine ⟨config, read, fun s => ?_⟩
  simpa only [same] using loads.loaded s

/-- The settings of `nodo.conf` but for the user agent. -/
def agentless : List (Setting × String) := [(.numberOfNodes, "8"),
  (.dnsSeed, "seed.testnet.bitcoin.sprovoost.nl"), (.connectToDnsNodes, "true"), (.customNodesIps, ""),
  (.netPort, "18333"), (.startString, "185665799"), (.protocolVersion, "70015"), (.nThreads, "8"),
  (.connectTimeout, "5"), (.maxConnectionsToServer, "15"), (.errorLogPath, "error.txt"),
  (.infoLogPath, "info.txt"), (.messageLogPath, "message.txt"), (.blocksDownloadPerNode, "16"),
  (.firstBlockDate, "2023-04-10 00:00:00"), (.dateFormat, "%Y-%m-%d %H:%M:%S"), (.headersInDisk, "2300000"),
  (.readHeadersFromDisk, "true"), (.ibdSingleNode, "false"), (.heightFirstBlockToDownload, "2428246"),
  (.headersFile, "first_headers.csv"), (.logsFolderPath, "./logs")]

theorem agentless_plain : ∀ pair ∈ agentless, Plain pair := by decide +kernel

/-- Two lines for one setting and none for the port. -/
def portless : List (Setting × String) := [(.userAgent, "/Satoshi:23.0.0/"), (.dnsSeed, "seed.tbtc.petertodd.org")] ++
  agentless.filter (·.1 ≠ .netPort)

/-- It is accepted, no line of it names the port, and the port is 0. -/
theorem from_reader_portless :
    ¬Config.NamesAll (fileOf portless) ∧ ∃ config, Config.fromReader (fileOf portless) = .ok config ∧
      (∀ line ∈ lines (fileOf portless), ∀ value, ¬Sets line .netPort value) ∧ config.netPort = 0 := by
  have others : ∀ pair ∈ agentless.filter (·.1 ≠ .netPort), Plain pair := fun pair member =>
    agentless_plain pair (List.mem_of_mem_filter member)
  have first : ∀ pair ∈ [(Setting.userAgent, "/Satoshi:23.0.0/"), (Setting.dnsSeed, "seed.tbtc.petertodd.org")],
      Plain pair := by decide +kernel
  have plain : ∀ pair ∈ portless, Plain pair := List.forall_mem_append.mpr ⟨first, others⟩
  have port : Setting.netPort ∉ portless.map Prod.fst := by decide
  have unnamed (value : String) : (Setting.netPort, value) ∉ portless := fun member =>
    port (List.mem_map_of_mem (f := Prod.fst) member)
  have absent : ∀ line ∈ lines (fileOf portless), ∀ value, ¬Sets line .netPort value :=
    fun line member value sets => unnamed value ((written_file_of plain).mem_iff.mpr ⟨line, member, sets⟩)
  obtain ⟨config, read, loaded⟩ := Config.from_reader_file_of plain rfl
  refine ⟨fun all => ?_, config, read, absent, ?_⟩
  · obtain ⟨line, member, value, sets, _⟩ := all config read .netPort
    exact absent line member value sets
  · rcases loaded .netPort with ⟨value, member, _⟩ | ⟨_, same⟩
    · exact absurd member (unnamed value)
    · have zero : u16FromStr "0" = .ok 0 := by decide +kernel
      exact (Except.ok.inj (zero.symm.trans ((same "0").mpr zero))).symm

theorem Config.Loaded.holds {pairs : List (Setting × String)} {config : Config} (loaded : Loaded pairs config)
    (apart : (pairs.map Prod.fst).Nodup) {s : Setting} {value : String} (member : (s, value) ∈ pairs) :
    s.Holds config value := by
  rcases loaded s with ⟨value', member', holds⟩ | ⟨absent, _⟩
  · obtain rfl := (Prod.mk.inj (List.inj_on_of_nodup_map apart member' member rfl)).2
    exact holds
  · exact absurd member (absent value)

theorem from_reader_user_agent {userAgent : String} (plain : Plain (.userAgent, userAgent)) :
    ∃ config, Config.fromReader (fileOf ((.userAgent, userAgent) :: agentless)) = .ok config ∧
      config.userAgent = userAgent := by
  obtain ⟨config, read, loaded⟩ := Config.from_reader_file_of (List.forall_mem_cons.mpr ⟨plain, agentless_plain⟩) rfl
  have apart : (Setting.userAgent :: agentless.map Prod.fst).Nodup := by decide
  have holds : Setting.userAgent.Holds config userAgent := loaded.holds apart List.mem_cons_self
  exact ⟨config, read, holds.symm⟩

/-- The settings of `nodo.conf`. -/
def nodoConf : List (Setting × String) := (.userAgent, "/Satoshi:23.0.0/") :: agentless

theorem from_reader_nodo_conf : ∃ config, Config.fromReader (fileOf nodoConf) = .ok config ∧
    config.headers = ⟨70015, 2300000, "2023-04-10 00:00:00", "%Y-%m-%d %H:%M:%S"⟩ ∧ config.blocks = ⟨8, 16, 2428246⟩ := by
  have plain : Plain (.userAgent, "/Satoshi:23.0.0/") := by decide +kernel
  obtain ⟨config, read, loaded⟩ := Config.from_reader_file_of (List.forall_mem_cons.mpr ⟨plain, agentless_plain⟩) rfl
  have apart : (nodoConf.map Prod.fst).Nodup := by decide
  have version : Setting.protocolVersion.Holds config "70015" := loaded.holds apart (by decide +kernel)
  have inDisk : Setting.headersInDisk.Holds config "2300000" := loaded.holds apart (by decide +kernel)
  have date : Setting.firstBlockDate.Holds config "2023-04-10 00:00:00" := loaded.holds apart (by decide +kernel)
  have format : Setting.dateFormat.Holds config "%Y-%m-%d %H:%M:%S" := loaded.holds apart (by decide +kernel)
  have threads : Setting.nThreads.Holds config "8" := loaded.holds apart (by decide +kernel)
  have perNode : Setting.blocksDownloadPerNode.Holds config "16" := loaded.holds apart (by decide +kernel)
  have height : Setting.heightFirstBlockToDownload.Holds config "2428246" :=
    loaded.holds apart (by decide +kernel)
  have parsed : i32FromStr "70015" = .ok 70015 ∧ usizeFromStr "2300000" = .ok 2300000 ∧
      usizeFromStr "8" = .ok 8 ∧ usizeFromStr "16" = .ok 16 ∧ usizeFromStr "2428246" = .ok 2428246 := by
    decide +kernel
  refine ⟨config, read, ?_, ?_⟩
  · rw [Config.headers, ← date, ← format, ← Except.ok.inj (parsed.1.symm.trans version),
      ← Except.ok.inj (parsed.2.1.symm.trans inDisk)]
  · rw [Config.blocks, ← Except.ok.inj (parsed.2.2.1.symm.trans threads),
      ← Except.ok.inj (parsed.2.2.2.1.symm.trans perNode), ← Except.ok.inj (parsed.2.2.2.2.symm.trans height)]

end BitcoinNode.Settings
