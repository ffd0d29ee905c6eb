import HyperDerp.HdPeers

/-!
# Key strings (`key_format.cc`)
-/

namespace HyperDerp

structure Sodium where
  /-- `crypto_sign_ed25519_verify_detached(sig, msg, pk) == 0`. -/
  verifyDetached : Bytes → Bytes → Bytes → Bool
  /-- `sodium_hex2bin` without ignored characters and without an end pointer. -/
  hex2bin : Bytes → Option Bytes

def kKeyPrefixLen : ℕ := 3
def kPrefixedKeyLen : ℕ := kKeyPrefixLen + kKeySize * 2
def kKeyPrefixRelay : Bytes := [0x72, 0x6b, 0x5f]

inductive KeyPrefix where
  | kRawHex
  | kRelay
  | kClient
  deriving DecidableEq

def hexToKey (sodium : Sodium) (hex : Bytes) : Option Key :=
  if hex.length ≠ kKeySize * 2 then none
  else
    match sodium.hex2bin hex with
    | none => none
    | some bin => if h : bin.length = kKeySize then some ⟨bin, h⟩ else none

/-- `none` is `kInvalid`. -/
def parseKeyString (sodium : Sodium) (s : Bytes) : Option (KeyPrefix × Key) :=
  if s.length = kKeySize * 2 then (hexToKey sodium s).map (KeyPrefix.kRawHex, ·)
  else if s.length = kPrefixedKeyLen then
    let body := s.drop kKeyPrefixLen
    if s.take kKeyPrefixLen = kKeyPrefixRelay then (hexToKey sodium body).map (KeyPrefix.kRelay, ·)
    else if s.take kKeyPrefixLen = kKeyPrefixClient then
      (hexToKey sodium body).map (KeyPrefix.kClient, ·)
    else none
  else none

end HyperDerp
