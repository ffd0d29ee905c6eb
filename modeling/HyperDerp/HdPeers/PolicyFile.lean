import HyperDerp.HdPeers.PolicySlots

/-!
# Policies on disk (`hd_peers.cc:340-491`, `server.cc:759-770`)

The policy file is a record count and the records, all integers little-endian.
Every policy change of a registered peer rewrites the file from the registry. It
is read once, at startup, and a record is applied only if its key is registered.
File operations are taken to succeed.
-/

namespace HyperDerp

/-! ### Format -/

def writeU16LE (v : ℕ) : Bytes := (BigEndian.bytes 2 v).reverse
def writeU32LE (v : ℕ) : Bytes := (BigEndian.bytes 4 v).reverse

/-- `fread` of exactly `n` bytes, and what is left. -/
def readExact (n : ℕ) (s : Bytes) : Option (Bytes × Bytes) :=
  if n ≤ s.length then some (s.take n, s.drop n) else none

def readU16LE (s : Bytes) : Option (ℕ × Bytes) :=
  (readExact 2 s).map fun r => (BigEndian.val r.1.reverse, r.2)

def readU32LE (s : Bytes) : Option (ℕ × Bytes) :=
  (readExact 4 s).map fun r => (BigEndian.val r.1.reverse, r.2)

def writeText (text : Bytes) : Bytes := writeU16LE text.length ++ text

def readText (s : Bytes) : Option (Bytes × Bytes) :=
  (readU16LE s).bind fun r => readExact r.1 r.2

def boolByte (b : Bool) : Byte := if b then 1 else 0

def policyRecord (key : Key) (pol : HdPeerPolicy) : Bytes :=
  key.data ++ ([boolByte pol.hasPin, pol.pinnedIntent, boolByte pol.overrideClient] ++
    (writeText pol.auditTag ++ writeText pol.reason))

/-- One round of the loop of `HdPeerPolicyLoad`, up to the search for the key. -/
def readPolicyRecord (s : Bytes) : Option ((Key × HdPeerPolicy) × Bytes) :=
  if h : kKeySize ≤ s.length then
    (readExact 3 (s.drop kKeySize)).bind fun hdr =>
      (readText hdr.2).bind fun tag =>
        (readText tag.2).map fun reason =>
          ((toKey s h,
            { hasPin := decide (hdr.1.getD 0 0 ≠ 0)
              pinnedIntent := hdr.1.getD 1 0
              overrideClient := decide (hdr.1.getD 2 0 ≠ 0)
              auditTag := tag.1
              reason := reason.1 }), reason.2)
  else none

def readPolicyRecords : ℕ → Bytes → List (Key × HdPeerPolicy)
  | 0, _ => []
  | n + 1, s =>
    match readPolicyRecord s with
    | none => []
    | some (r, rest) => r :: readPolicyRecords n rest

def policyRecords : Option Bytes → List (Key × HdPeerPolicy)
  | none => []
  | some s =>
    match readU32LE s with
    | none => []
    | some (count, rest) => readPolicyRecords count rest

/-- `HdPeerPolicyLoad` (`hd_peers.cc:384-436`). -/
def hdPeerPolicyLoad (reg : HdPeerRegistry) (file : Option Bytes) : HdPeerRegistry :=
  (policyRecords file).foldl (fun reg r => (hdPeersSetPolicy reg r.1 r.2).getD reg) reg

def HdPeerPolicy.stored (pol : HdPeerPolicy) : Bool :=
  pol.hasPin || pol.overrideClient || !pol.auditTag.isEmpty || !pol.reason.isEmpty

def storedPolicies (reg : HdPeerRegistry) : List (Key × HdPeerPolicy) :=
  ((List.finRange kHdMaxPeers).filter fun i =>
    decide ((reg.peers i).occupied = .live) && (reg.policies i).stored).map fun i =>
      ((reg.peers i).key, reg.policies i)

/-- `HdPeerPolicySave` (`hd_peers.cc:438-491`): the bytes that replace the file. -/
def hdPeerPolicySave (reg : HdPeerRegistry) : Bytes :=
  writeU32LE (storedPolicies reg).length ++
    (storedPolicies reg).flatMap fun r => policyRecord r.1 r.2

/-! ### What is saved can be read -/

theorem readExact_append {n : ℕ} {s : Bytes} (h : s.length = n) (t : Bytes) :
    readExact n (s ++ t) = some (s, t) := by
  unfold readExact
  rw [if_pos (by rw [List.length_append]; omega), List.take_append_of_le_length (by omega),
    List.drop_append_of_le_length (by omega), List.take_of_length_le (by omega),
    List.drop_of_length_le (by omega), List.nil_append]

theorem readU16LE_append {v : ℕ} (h : v < 2 ^ 16) (t : Bytes) :
    readU16LE (writeU16LE v ++ t) = some (v, t) := by
  unfold readU16LE writeU16LE
  rw [readExact_append (by simp), Option.map_some, List.reverse_reverse,
    BigEndian.val_bytes_of_lt (by omega)]

theorem readU32LE_append {v : ℕ} (h : v < 2 ^ 32) (t : Bytes) :
    readU32LE (writeU32LE v ++ t) = some (v, t) := by
  unfold readU32LE writeU32LE
  rw [readExact_append (by simp), Option.map_some, List.reverse_reverse,
    BigEndian.val_bytes_of_lt (by omega)]

theorem readText_append {text : Bytes} (h : text.length < 2 ^ 16) (t : Bytes) :
    readText (writeText text ++ t) = some (text, t) := by
  unfold readText writeText
  rw [List.append_assoc, readU16LE_append h, Option.bind_some, readExact_append rfl]

def HdPeerPolicy.Short (pol : HdPeerPolicy) : Prop :=
  pol.auditTag.length < 2 ^ 16 ∧ pol.reason.length < 2 ^ 16

theorem boolByte_ne_zero (b : Bool) : decide (boolByte b ≠ 0) = b := by
  cases b <;> rfl

theorem readPolicyRecord_append (key : Key) {pol : HdPeerPolicy} (h : pol.Short) (t : Bytes) :
    readPolicyRecord (policyRecord key pol ++ t) = some ((key, pol), t) := by
  have hsize := key.size
  have hle : kKeySize ≤ (policyRecord key pol ++ t).length := by
    unfold policyRecord
    rw [List.append_assoc, List.length_append]
    omega
  have hkey : toKey (policyRecord key pol ++ t) hle = key := by
    apply Key.ext_data
    unfold policyRecord toKey
    dsimp only
    rw [List.append_assoc, List.take_append_of_le_length (by omega),
      List.take_of_length_le (by omega)]
  have hdrop : (policyRecord key pol ++ t).drop kKeySize =
      [boolByte pol.hasPin, pol.pinnedIntent, boolByte pol.overrideClient] ++
        (writeText pol.auditTag ++ (writeText pol.reason ++ t)) := by
    unfold policyRecord
    rw [List.append_assoc, List.drop_append_of_le_length (by omega),
      List.drop_of_length_le (by omega), List.nil_append, List.append_assoc, List.append_assoc]
  have hhdr := readExact_append (s := [boolByte pol.hasPin, pol.pinnedIntent,
    boolByte pol.overrideClient]) (n := 3) rfl
      (writeText pol.auditTag ++ (writeText pol.reason ++ t))
  unfold readPolicyRecord
  rw [dif_pos hle, hdrop, hhdr, Option.bind_some, readText_append h.1,
    Option.bind_some, readText_append h.2, Option.map_some, hkey]
  simp only [List.getD_cons_zero, List.getD_cons_succ, boolByte_ne_zero]

theorem readPolicyRecords_append (rs : List (Key × HdPeerPolicy)) (h : ∀ r ∈ rs, r.2.Short)
    (t : Bytes) :
    readPolicyRecords rs.length ((rs.flatMap fun r => policyRecord r.1 r.2) ++ t) = rs := by
  induction rs with
  | nil => rfl
  | cons r rs ih =>
    rw [List.length_cons, List.flatMap_cons, List.append_assoc, readPolicyRecords,
      readPolicyRecord_append r.1 (h r (List.mem_cons_self ..))]
    dsimp only
    rw [ih fun r hr => h r (List.mem_cons_of_mem _ hr)]

theorem length_storedPolicies (reg : HdPeerRegistry) :
    (storedPolicies reg).length ≤ kHdMaxPeers := by
  unfold storedPolicies
  rw [List.length_map]
  apply (List.length_filter_le _ _).trans
  rw [List.length_finRange]

theorem policyRecords_save (reg : HdPeerRegistry) (h : ∀ r ∈ storedPolicies reg, r.2.Short) :
    policyRecords (some (hdPeerPolicySave reg)) = storedPolicies reg := by
  have hlen := length_storedPolicies reg
  have hlt : (storedPolicies reg).length < 2 ^ 32 := by
    unfold kHdMaxPeers at hlen
    omega
  unfold policyRecords hdPeerPolicySave
  dsimp only
  rw [readU32LE_append hlt]
  have hall := readPolicyRecords_append _ h []
  rw [List.append_nil] at hall
  exact hall

/-! ### Restarts -/

/-- A registry and the file at its `peer_policy_path`. -/
structure PolicyStore where
  reg : HdPeerRegistry
  file : Option Bytes

inductive PolicyOp where
  | enrol (key : Key) (fd : Fd)
  | setPolicy (key : Key) (policy : HdPeerPolicy)
  | clearPolicy (key : Key)

def PolicyOp.changes : PolicyOp → Option Key
  | .enrol _ _ => none
  | .setPolicy key _ => some key
  | .clearPolicy key => some key

namespace PolicyStore

def saved (s : PolicyStore) : Option HdPeerRegistry → PolicyStore
  | none => s
  | some reg => ⟨reg, some (hdPeerPolicySave reg)⟩

def apply (s : PolicyStore) : PolicyOp → PolicyStore
  | .enrol key fd => { s with reg := hdPeersInsert s.reg key fd }
  | .setPolicy key policy => s.saved (hdPeersSetPolicy s.reg key policy)
  | .clearPolicy key => s.saved (hdPeersClearPolicy s.reg key)

def run (s : PolicyStore) (ops : List PolicyOp) : PolicyStore := ops.foldl apply s

/-- A new process: an empty registry, and the file is loaded. -/
def boot (mode : HdEnrollMode) (file : Option Bytes) : PolicyStore :=
  ⟨hdPeerPolicyLoad { enrollMode := mode } file, file⟩

/-- After a restart and anything but a change of the key's policy: the key has its policy
when it is registered again, and until then the file has it. -/
def Survives (s : PolicyStore) : Prop :=
  ∀ mode ops key pol, hdPeersLookupPolicy s.reg key = some pol →
    (∀ op ∈ ops, op.changes ≠ some key) →
    ((hdPeersLookup ((boot mode s.file).run ops).reg key).isSome = true →
      hdPeersLookupPolicy ((boot mode s.file).run ops).reg key = some pol) ∧
    (hdPeersLookup ((boot mode s.file).run ops).reg key = none → pol ≠ {} →
      (key, pol) ∈ policyRecords ((boot mode s.file).run ops).file)

theorem boot_reg (mode : HdEnrollMode) (file : Option Bytes) :
    (boot mode file).reg = { enrollMode := mode } := by
  unfold boot hdPeerPolicyLoad
  dsimp only
  induction policyRecords file with
  | nil => rfl
  | cons r rs ih =>
    have hnone : hdPeersLookup { enrollMode := mode } r.1 = none :=
      HdPeerRegistry.lookup_none.2 fun _ hl => absurd hl nofun
    have hskip : (hdPeersSetPolicy { enrollMode := mode } r.1 r.2).getD { enrollMode := mode } =
        { enrollMode := mode } := by
      unfold hdPeersSetPolicy
      rw [hnone]
      rfl
    rw [List.foldl_cons, hskip]
    exact ih

structure Without (key : Key) (reg : HdPeerRegistry) (last : Key → Option HdPeerPolicy) : Prop
    extends PolicySlots.Inv reg last where
  free : ∀ i, ¬(reg.peers i).Live → reg.policies i = {}
  unset : ∀ pol, last key = some pol → pol = {}

theorem without_boot (key : Key) (mode : HdEnrollMode) (file : Option Bytes) :
    Without key (boot mode file).reg fun _ => none := by
  rw [boot_reg]
  refine ⟨PolicySlots.inv_init (s := ⟨_, _⟩) ⟨nofun, rfl⟩, fun _ _ => rfl, nofun⟩

variable {key : Key} {last : Key → Option HdPeerPolicy} {s : PolicyStore}

theorem Without.insert {reg : HdPeerRegistry} (h : Without key reg last) (k : Key) (fd : Fd) :
    ∃ last', Without key (hdPeersInsert reg k fd) last' := by
  rcases HdPeerRegistry.hdPeersInsert_cases reg k fd with ⟨-, heq⟩ | ⟨i, ht, heq⟩
  · rw [heq]
    exact ⟨last, h⟩
  · rw [heq]
    refine ⟨_, h.toInv.enrol ht fd (h.free i (HdPeerRegistry.freeSlot_some ht.2)), ?_, ?_⟩
    · intro j hj
      have hji : j ≠ i := by
        intro hji
        rw [hji, HdPeerRegistry.enrol_self] at hj
        exact hj rfl
      rw [HdPeerRegistry.enrol_ne reg hji] at hj
      exact h.free j hj
    · intro pol hpol
      by_cases hk : key = k
      · rw [hk, Function.update_self] at hpol
        exact (Option.some.inj hpol).symm
      · rw [Function.update_of_ne hk] at hpol
        exact h.unset pol hpol

theorem Without.saved
    (h : Without key s.reg last) {k : Key} (hk : k ≠ key) (policy : HdPeerPolicy) :
    ∃ last', Without key (s.saved (hdPeersSetPolicy s.reg k policy)).reg last' := by
  unfold hdPeersSetPolicy
  cases hl : hdPeersLookup s.reg k with
  | none => exact ⟨last, h⟩
  | some i =>
    refine ⟨_, h.toInv.put hl policy, ?_, ?_⟩
    · intro j hj
      have hji : j ≠ i := by
        intro hji
        rw [hji] at hj
        exact hj (HdPeerRegistry.lookup_some hl).1
      have hsame : (s.reg.setPolicy i policy).policies j = s.reg.policies j :=
        Function.update_of_ne hji ..
      exact hsame.trans (h.free j hj)
    · intro pol hpol
      rw [Function.update_of_ne hk.symm] at hpol
      exact h.unset pol hpol

theorem Without.run (h : Without key s.reg last) (ops : List PolicyOp)
    (hops : ∀ op ∈ ops, op.changes ≠ some key) :
    ∃ last', Without key (s.run ops).reg last' := by
  induction ops generalizing s last with
  | nil => exact ⟨last, h⟩
  | cons op ops ih =>
    have hop := hops op (List.mem_cons_self ..)
    have hone : ∃ last', Without key (s.apply op).reg last' := by
      cases op with
      | enrol k fd =>
        simp only [apply]
        exact h.insert k fd
      | setPolicy k policy => exact h.saved (fun hk => hop (congrArg some hk)) policy
      | clearPolicy k => exact h.saved (fun hk => hop (congrArg some hk)) {}
    obtain ⟨last', h'⟩ := hone
    exact ih h' fun op' hop' => hops op' (List.mem_cons_of_mem _ hop')

theorem policy_after_boot {mode : HdEnrollMode} {file : Option Bytes} {ops : List PolicyOp}
    {pol : HdPeerPolicy} (hops : ∀ op ∈ ops, op.changes ≠ some key)
    (h : hdPeersLookupPolicy ((boot mode file).run ops).reg key = some pol) : pol = {} := by
  obtain ⟨last, hw⟩ := (without_boot key mode file).run ops hops
  rw [hw.agrees key] at h
  exact hw.unset pol h

theorem Survives.all_default (hs : Survives s) {pol : HdPeerPolicy}
    (hpol : hdPeersLookupPolicy s.reg key = some pol) : pol = {} := by
  have henrol : ∀ op ∈ [PolicyOp.enrol key 5], op.changes ≠ some key := by
    intro op hop
    rw [List.mem_singleton.1 hop]
    nofun
  obtain ⟨hback, -⟩ := hs .kManual [.enrol key 5] key pol hpol henrol
  have ht : HdPeerRegistry.Takes (boot .kManual s.file).reg key 0 := by
    rw [boot_reg]
    exact HdPeerRegistry.takes_empty _ key
  have hlive := HdPeerRegistry.lookup_enrol_self ht 5
  rw [← HdPeerRegistry.hdPeersInsert_takes ht] at hlive
  have hrun : ((boot .kManual s.file).run [.enrol key 5]).reg =
      hdPeersInsert (boot .kManual s.file).reg key 5 := by
    simp only [run, List.foldl_cons, List.foldl_nil, apply]
  apply policy_after_boot henrol
  apply hback
  rw [hrun, hlive]
  rfl

theorem survives_of_all_default
    (hall : ∀ key pol, hdPeersLookupPolicy s.reg key = some pol → pol = {}) : Survives s := by
  intro mode ops key pol hpol hops
  have hdefault := hall key pol hpol
  refine ⟨fun hlive => ?_, fun _ hne => absurd hdefault hne⟩
  obtain ⟨i, hi⟩ := Option.isSome_iff_exists.1 hlive
  have hnow : hdPeersLookupPolicy ((boot mode s.file).run ops).reg key =
      some (((boot mode s.file).run ops).reg.policies i) := by
    rw [PolicySlots.lookupPolicy_eq, hi, Option.map_some]
  rw [hnow, hdefault, policy_after_boot hops hnow]

/-- Policies survive a restart only where there is none to survive. -/
theorem survives_iff_all_default (mode : HdEnrollMode) (file : Option Bytes) (ops : List PolicyOp) :
    Survives ((boot mode file).run ops) ↔
      ∀ key pol, hdPeersLookupPolicy ((boot mode file).run ops).reg key = some pol → pol = {} :=
  ⟨fun hs _ _ hpol => hs.all_default hpol, survives_of_all_default⟩

def pinned : List PolicyOp :=
  [.enrol (byteKey 1) 5, .setPolicy (byteKey 1) PolicySlots.relayOnly]

theorem pin_lost_on_restart : ¬∀ mode file ops, Survives ((boot mode file).run ops) := by
  intro hall
  have hpol : hdPeersLookupPolicy ((boot .kManual none).run pinned).reg (byteKey 1) =
      some PolicySlots.relayOnly := by
    decide +kernel
  have hdefault := (hall .kManual none pinned).all_default hpol
  exact absurd hdefault (by decide)

end PolicyStore

end HyperDerp
