import LdacsSdk.Core.Definitions

/-!
# Loading a configuration

`event_switch` takes one event of the YAML parser after the other. A scalar is a value if a key is
pending and a key otherwise. The model ends with a fault where the program exits, uses a NULL
pointer or stores outside of an array. Floating-point numbers are of a type `F` of their own.
-/
namespace LdacsSdk

/-- `ldacs_roles`. -/
inductive LdacsRoles where
  | ldUndefined | ldAs | ldGs | ldGsc | ldSgw | ldAttack
  deriving DecidableEq, Repr

/-- `peer_gs_t`; an array of characters is the string in it. -/
structure PeerGs where
  peerAddr : List UInt8 := []
  peerPort : ℤ := 0
  peerSac : ℕ := 0
  deriving DecidableEq, Repr

/-- The fields of `config_t` that a file can set. The array `peers` has the length that it was
allocated with. -/
structure ConfigT (F : Type*) where
  debug : Bool
  role : LdacsRoles
  initFlFreq : F
  initRlFreq : F
  addr : List UInt8
  port : ℕ
  gsnfAddr : List UInt8
  gsnfAddrV6 : List UInt8
  gsnfLocalPort : ℕ
  gsnfRemotePort : ℕ
  peerServerPort : ℕ
  peers : List (Option PeerGs)
  peerCount : ℕ
  httpPort : ℕ
  autoAuth : Bool
  ua : ℕ
  gsSac : ℕ
  asSac : ℕ
  startLongitude : F
  startLatitude : F
  referLongitude : F
  referLatitude : F

/-- Why loading does not go on. -/
inductive ConfigFault where
  | badRole | unknownKey | gotAlias | noEvent | nullPointer | overflow
  deriving DecidableEq, Repr

/-- The events of `libyaml`. -/
inductive YamlEvent where
  | noEvent
  | streamStart
  | streamEnd
  | documentStart
  | documentEnd
  | alias
  | scalar (value : List UInt8)
  | sequenceStart
  | sequenceEnd
  | mappingStart
  | mappingEnd
  deriving DecidableEq, Repr

/-- The number at the start of some digits, behind others that were read. -/
def atoiDigits (n : ℕ) : List UInt8 → ℕ
  | [] => n
  | c :: s => if 48 ≤ c ∧ c ≤ 57 then atoiDigits (10 * n + (c.toNat - 48)) s else n

/-- `atoi`, where it is defined: of a number that an `int` holds. -/
def atoi (s : List UInt8) : ℤ :=
  match s.dropWhile fun c => c = 32 ∨ 9 ≤ c ∧ c ≤ 13 with
  | [] => 0
  | c :: s =>
    if c = 45 then -(atoiDigits 0 s : ℤ)
    else if c = 43 then atoiDigits 0 s
    else atoiDigits 0 (c :: s)

/-- Storage in an unsigned integer of some bits. -/
def toUint (bits : ℕ) (z : ℤ) : ℕ := (z % 2 ^ bits).toNat

/-- `strcpy` into an array of some characters. -/
def strcpy (room : ℕ) (value : List UInt8) : Except ConfigFault (List UInt8) :=
  if value.length < room then .ok value else .error .overflow

/-- The keys that set a field of `config_t`. -/
inductive ConfigField where
  | role | ua | gsSac | asSac | port | ipv6Address | gsnfLocalPort | gsnfRemotePort
  | peerServerPort | gsnfAddr | gsnfAddrV6 | httpPort | autoAuth | debug | initFlFreq | initRlFreq
  | startLongitude | startLatitude | referLongitude | referLatitude
  deriving DecidableEq, Repr

/-- The keys that set a field of a peer. -/
inductive PeerField where
  | peerAddr | peerSac | peerPort
  deriving DecidableEq, Repr

/-- A key in the file. -/
def ConfigField.key : ConfigField → List UInt8
  | .role => chars "role"
  | .ua => chars "UA"
  | .gsSac => chars "GS-SAC"
  | .asSac => chars "AS-SAC"
  | .port => chars "port"
  | .ipv6Address => chars "ipv6_address"
  | .gsnfLocalPort => chars "gsnf_local_port"
  | .gsnfRemotePort => chars "gsnf_remote_port"
  | .peerServerPort => chars "peer_server_port"
  | .gsnfAddr => chars "gsnf_addr"
  | .gsnfAddrV6 => chars "gsnf_addr_v6"
  | .httpPort => chars "http_port"
  | .autoAuth => chars "auto_auth"
  | .debug => chars "debug"
  | .initFlFreq => chars "init_fl_freq"
  | .initRlFreq => chars "init_rl_freq"
  | .startLongitude => chars "start-longitude"
  | .startLatitude => chars "start-latitude"
  | .referLongitude => chars "refer-longitude"
  | .referLatitude => chars "refer-latitude"

def PeerField.key : PeerField → List UInt8
  | .peerAddr => chars "peer_addr"
  | .peerSac => chars "peer_SAC"
  | .peerPort => chars "peer_port"

/-- The role with a text. -/
def configRole (text : List UInt8) : Option LdacsRoles :=
  if text = chars "as" then some .ldAs
  else if text = chars "gs" then some .ldGs
  else if text = chars "gsc" then some .ldGsc
  else if text = chars "sgw" then some .ldSgw
  else if text = chars "attack" then some .ldAttack
  else none

section Loading

variable {F : Type*} (atof strtof : List UInt8 → F)

/-- The branch of `handle_value` for a key of `config_t`. -/
def ConfigField.set (config : ConfigT F) (value : List UInt8) :
    ConfigField → Except ConfigFault (ConfigT F)
  | .role =>
    match configRole value with
    | some r => .ok { config with role := r }
    | none => .error .badRole
  | .ua => .ok { config with ua := toUint 32 (atoi value) }
  | .gsSac => .ok { config with gsSac := toUint 16 (atoi value) }
  | .asSac => .ok { config with asSac := toUint 16 (atoi value) }
  | .port => .ok { config with port := toUint 16 (atoi value) }
  | .ipv6Address => (strcpy 16 value).map fun addr => { config with addr }
  | .gsnfLocalPort => .ok { config with gsnfLocalPort := toUint 16 (atoi value) }
  | .gsnfRemotePort => .ok { config with gsnfRemotePort := toUint 16 (atoi value) }
  | .peerServerPort => .ok { config with peerServerPort := toUint 16 (atoi value) }
  | .gsnfAddr => (strcpy 16 value).map fun gsnfAddr => { config with gsnfAddr }
  | .gsnfAddrV6 => (strcpy 128 value).map fun gsnfAddrV6 => { config with gsnfAddrV6 }
  | .httpPort => .ok { config with httpPort := toUint 16 (atoi value) }
  | .autoAuth => .ok { config with autoAuth := atoi value = 1 }
  | .debug => .ok { config with debug := atoi value ≠ 0 }
  | .initFlFreq => .ok { config with initFlFreq := atof value }
  | .initRlFreq => .ok { config with initRlFreq := atof value }
  | .startLongitude => .ok { config with startLongitude := strtof value }
  | .startLatitude => .ok { config with startLatitude := strtof value }
  | .referLongitude => .ok { config with referLongitude := strtof value }
  | .referLatitude => .ok { config with referLatitude := strtof value }

/-- The assignment of `handle_value` to a field of a peer. -/
def PeerField.set (peer : PeerGs) (value : List UInt8) : PeerField → Except ConfigFault PeerGs
  | .peerAddr => (strcpy 128 value).map fun peerAddr => { peer with peerAddr }
  | .peerSac => .ok { peer with peerSac := toUint 32 (atoi value) }
  | .peerPort => .ok { peer with peerPort := atoi value }

end Loading

end LdacsSdk
