import LdacsSdk.Config.Events
import Mathlib.Data.List.Perm.Basic

/-!
# Peer lists in a configuration

A file with a list of peers is a mapping of keys and of named mappings of keys, with one sequence
`peers` in it. The list loads as it stands if it has at most ten entries and, when it is empty, if
no key comes after it.
-/
namespace LdacsSdk

/-! ## Files -/

/-- Entries of a mapping that has no list of peers in it. -/
inductive PlainItems where
  | nil
  | scalar (key : ConfigField) (value : List UInt8) (rest : PlainItems)
  | mapping (name : List UInt8) (items rest : PlainItems)

namespace PlainItems

/-- The events of `libyaml` for the entries. -/
def events : PlainItems → List YamlEvent
  | nil => []
  | scalar key value rest => .scalar key.key :: .scalar value :: rest.events
  | mapping name items rest =>
    .scalar name :: .mappingStart :: (items.events ++ .mappingEnd :: rest.events)

/-- The keys and their values in the order of the file. -/
def scalars : PlainItems → List (ConfigField × List UInt8)
  | nil => []
  | scalar key value rest => (key, value) :: rest.scalars
  | mapping _ items rest => items.scalars ++ rest.scalars

end PlainItems

/-- A peer in the file: the three texts, in some order. -/
structure PeerItem where
  peerAddr : List UInt8
  peerSac : List UInt8
  peerPort : List UInt8
  order : List PeerField
  orderPerm : order.Perm [.peerAddr, .peerSac, .peerPort]
  addrFits : peerAddr.length < 128

namespace PeerItem

variable (item : PeerItem)

def text : PeerField → List UInt8
  | .peerAddr => item.peerAddr
  | .peerSac => item.peerSac
  | .peerPort => item.peerPort

def fieldEvents (field : PeerField) : List YamlEvent :=
  [.scalar field.key, .scalar (item.text field)]

def events : List YamlEvent :=
  .mappingStart :: (item.order.flatMap item.fieldEvents ++ [.mappingEnd])

/-- The entry of `peers` with the three values. -/
def peer : PeerGs where
  peerAddr := item.peerAddr
  peerSac := toUint 32 (atoi item.peerSac)
  peerPort := atoi item.peerPort

end PeerItem

/-- Entries of a mapping with the list of peers among them or in a named mapping among them. -/
inductive PeersMapping where
  | here (before : PlainItems) (peers : List PeerItem) (after : PlainItems)
  | inside (before : PlainItems) (name : List UInt8) (inner : PeersMapping) (after : PlainItems)

/-- The events of the sequence with its name. -/
def peersEvents (peers : List PeerItem) : List YamlEvent :=
  .scalar (chars "peers") :: .sequenceStart :: (peers.flatMap PeerItem.events ++ [.sequenceEnd])

namespace PeersMapping

def events : PeersMapping → List YamlEvent
  | here before peers after => before.events ++ (peersEvents peers ++ after.events)
  | inside before name inner after =>
    before.events ++ .scalar name :: .mappingStart :: (inner.events ++ .mappingEnd :: after.events)

/-- The events of a file. -/
def stream (doc : PeersMapping) : List YamlEvent :=
  [.streamStart, .documentStart, .mappingStart] ++ doc.events ++
    [.mappingEnd, .documentEnd, .streamEnd]

def peers : PeersMapping → List PeerItem
  | here _ peers _ => peers
  | inside _ _ inner _ => inner.peers

def scalarsBefore : PeersMapping → List (ConfigField × List UInt8)
  | here before _ _ => before.scalars
  | inside before _ inner _ => before.scalars ++ inner.scalarsBefore

def scalarsAfter : PeersMapping → List (ConfigField × List UInt8)
  | here _ _ after => after.scalars
  | inside _ _ inner after => inner.scalarsAfter ++ after.scalars

/-- The keys of the file and their values in order. -/
def scalars (doc : PeersMapping) : List (ConfigField × List UInt8) :=
  doc.scalarsBefore ++ doc.scalarsAfter

/-- No key and no named mapping comes after the list, in any of the mappings around it. -/
def NothingAfter : PeersMapping → Prop
  | here _ _ after => after = .nil
  | inside _ _ inner after => inner.NothingAfter ∧ after = .nil

end PeersMapping

/-- The role is one of the five, and an address has room in its array. -/
def ConfigField.Fits (value : List UInt8) : ConfigField → Prop
  | .role => (configRole value).isSome
  | .ipv6Address | .gsnfAddr => value.length < 16
  | .gsnfAddrV6 => value.length < 128
  | _ => True

section Loading

variable {F : Type*} (atof strtof : List UInt8 → F)

/-- A configuration with other peers. -/
def ConfigT.withPeers (config : ConfigT F) (peers : List (Option PeerGs)) (peerCount : ℕ) :
    ConfigT F :=
  { config with peers, peerCount }

@[simp] theorem ConfigT.withPeers_peers (config : ConfigT F) (peers : List (Option PeerGs))
    (n : ℕ) : (config.withPeers peers n).peers = peers := rfl

@[simp] theorem ConfigT.withPeers_peerCount (config : ConfigT F) (peers : List (Option PeerGs))
    (n : ℕ) : (config.withPeers peers n).peerCount = n := rfl

namespace PeerItem

variable (item : PeerItem)

/-- A peer with the value of one field stored. -/
def put (peer : PeerGs) : PeerField → PeerGs
  | .peerAddr => { peer with peerAddr := item.peerAddr }
  | .peerSac => { peer with peerSac := toUint 32 (atoi item.peerSac) }
  | .peerPort => { peer with peerPort := atoi item.peerPort }

end PeerItem

namespace ConfigT

end ConfigT

/-! ## Values -/

namespace PeersMapping

theorem NothingAfter.scalarsAfter {doc : PeersMapping} (h : doc.NothingAfter) :
    doc.scalarsAfter = [] := by
  induction doc with
  | here before peers after =>
    have hafter : after = .nil := h
    subst hafter
    rfl
  | inside before name inner after ih =>
    obtain ⟨hinner, rfl⟩ := h
    simp [PeersMapping.scalarsAfter, ih hinner, PlainItems.scalars]

end PeersMapping

end Loading

end LdacsSdk
