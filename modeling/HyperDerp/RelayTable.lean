import HyperDerp.DataPlane.Types

/-!
# Relay routing table (`hd_relay_table.h`, `hd_relay_table.cc`)

An array of relays scanned from the front. A direct neighbour has hop count 1
and is its own next hop; other entries are learned from announcements and carry
the fd of the link they were learned on.
-/

namespace HyperDerp

def kMaxRelays : ℕ := 4096

structure RelayEntry where
  relayId : ℕ := 0
  fd : Fd := -1
  key : Key := zeroKey
  hops : ℕ := 0
  nextHop : ℕ := 0
  occupied : Bool := false

structure RelayTable where
  entries : Fin kMaxRelays → RelayEntry := fun _ => {}
  selfId : ℕ := 0
  relayCount : ℤ := 0

namespace RelayTable

def find (rt : RelayTable) (p : RelayEntry → Bool) : Option (Fin kMaxRelays) :=
  (List.finRange kMaxRelays).find? fun i => p (rt.entries i)

def byId (rt : RelayTable) (relayId : ℕ) : Option (Fin kMaxRelays) :=
  rt.find fun e => e.occupied && decide (e.relayId = relayId)

def set (rt : RelayTable) (i : Fin kMaxRelays) (e : RelayEntry) : RelayTable :=
  { rt with entries := Function.update rt.entries i e }

end RelayTable

def relayTableLookup (rt : RelayTable) (relayId : ℕ) : Option RelayEntry :=
  (rt.byId relayId).map rt.entries

/-- `RelayTableAdd` (`hd_relay_table.cc:19-61`), without the relay's name. -/
def relayTableAdd (rt : RelayTable) (relayId : ℕ) (fd : Fd) (key : Key) : RelayTable :=
  if relayId = 0 then rt
  else
    match rt.byId relayId with
    | some i =>
      rt.set i { rt.entries i with fd := fd, key := key, hops := 1, nextHop := relayId }
    | none =>
      match rt.find fun e => !e.occupied with
      | none => rt
      | some i =>
        { rt.set i ⟨relayId, fd, key, 1, relayId, true⟩ with relayCount := rt.relayCount + 1 }

/-- `RelayTableUpdateRoute` (`hd_relay_table.cc:88-124`); a new entry keeps the
key its slot had. -/
def relayTableUpdateRoute (rt : RelayTable) (relayId hops nextHop : ℕ) (nextHopFd : Fd) :
    RelayTable :=
  if relayId = 0 ∨ relayId = rt.selfId then rt
  else
    match rt.byId relayId with
    | some i =>
      if hops < (rt.entries i).hops then
        rt.set i { rt.entries i with hops := hops, nextHop := nextHop, fd := nextHopFd }
      else rt
    | none =>
      match rt.find fun e => !e.occupied with
      | none => rt
      | some i =>
        { rt.set i ⟨relayId, nextHopFd, (rt.entries i).key, hops, nextHop, true⟩ with
          relayCount := rt.relayCount + 1 }

/-- `RelayTableRemove` (`hd_relay_table.cc:65-76`). -/
def relayTableRemove (rt : RelayTable) (relayId : ℕ) : RelayTable :=
  match rt.byId relayId with
  | none => rt
  | some i => { rt.set i {} with relayCount := rt.relayCount - 1 }

/-- `RelayTableList` (`hd_relay_table.cc:126-143`): ids and hop counts in slot order. -/
def relayTableList (rt : RelayTable) (maxOut : ℕ) : List (ℕ × ℕ) :=
  (((List.finRange kMaxRelays).filter fun i => (rt.entries i).occupied).map fun i =>
    ((rt.entries i).relayId, (rt.entries i).hops)).take maxOut

end HyperDerp
