import HyperDerp.HdPeers
import Mathlib.Data.List.Perm.Basic

/-!
# Federation decisions (`hd_peers.cc:61-102`)

The loop over the accept rules returns at the first rule whose fleet id matches the origin.
-/

namespace HyperDerp

namespace HdFederationAccept

def Matches (rule : HdFederationAccept) (origin : Bytes) : Prop :=
  globMatch rule.fleetId origin = true

/-- The destinations of the rule are not restricted or one of them matches the target. -/
def Admits (rule : HdFederationAccept) (target : Key) : Prop :=
  rule.allowedDestinations = [] ∨ ∃ pat ∈ rule.allowedDestinations,
    globMatch pat (keyToCkString target) = true ∨ globMatch pat (keyHex target) = true

end HdFederationAccept

namespace HdFederationPolicy

variable {policy : HdFederationPolicy} {rule : HdFederationAccept}
  {rules : List HdFederationAccept} {origin pattern : Bytes} {target : Key}

def Rejects (policy : HdFederationPolicy) (origin : Bytes) : Prop :=
  ∃ r ∈ policy.rejectFrom, globMatch r origin = true

/-- Not rejected, and some accept rule for the origin admits the target. -/
def Allowed (policy : HdFederationPolicy) (origin : Bytes) (target : Key) : Prop :=
  ¬ policy.Rejects origin ∧ ∃ rule ∈ policy.acceptFrom, rule.Matches origin ∧ rule.Admits target

def acceptOnly (policy : HdFederationPolicy) (rules : List HdFederationAccept) :
    HdFederationPolicy :=
  { policy with acceptFrom := rules }

def rejectOnly (policy : HdFederationPolicy) (patterns : List Bytes) : HdFederationPolicy :=
  { policy with rejectFrom := patterns }

/-- The decision is that of the rules as sets: it survives a permutation of the accept rules, an
additional accept rule leaves what is allowed, and an additional reject pattern what is denied. -/
structure OrderFree (policy : HdFederationPolicy) (rule : HdFederationAccept) (pattern : Bytes)
    (origin : Bytes) (target : Key) : Prop where
  exact : hdFederationAllows policy origin target = true ↔ policy.Allowed origin target
  perm : ∀ rules, rules.Perm policy.acceptFrom →
    hdFederationAllows (policy.acceptOnly rules) origin target =
      hdFederationAllows policy origin target
  accept : ∀ before after, policy.acceptFrom = before ++ after →
    hdFederationAllows policy origin target = true →
    hdFederationAllows (policy.acceptOnly (before ++ rule :: after)) origin target = true
  reject : ∀ before after, policy.rejectFrom = before ++ after →
    hdFederationAllows policy origin target = false →
    hdFederationAllows (policy.rejectOnly (before ++ pattern :: after)) origin target = false

/-- The origin is rejected, or no accept rule admits the target while another one for the same
origin, possibly the additional one, does not. -/
def RulesAgree (policy : HdFederationPolicy) (rule : HdFederationAccept) (origin : Bytes)
    (target : Key) : Prop :=
  policy.Rejects origin ∨ ∀ r ∈ policy.acceptFrom, ∀ r' ∈ rule :: policy.acceptFrom,
    r.Matches origin → r'.Matches origin → r.Admits target → r'.Admits target

theorem accepts_cons_matching (h : rule.Matches origin) :
    federationAccepts origin (keyToCkString target) (keyHex target) (rule :: rules) = true ↔
      rule.Admits target := by
  unfold federationAccepts HdFederationAccept.Admits
  have hm : globMatch rule.fleetId origin = true := h
  rw [hm, Bool.not_true, if_neg Bool.false_ne_true]
  cases rule.allowedDestinations with
  | nil => simp
  | cons pat pats => simp

theorem accepts_cons_other (h : ¬ rule.Matches origin) :
    federationAccepts origin (keyToCkString target) (keyHex target) (rule :: rules) =
      federationAccepts origin (keyToCkString target) (keyHex target) rules := by
  have hm : globMatch rule.fleetId origin = false := by
    simpa [HdFederationAccept.Matches] using h
  rw [federationAccepts, hm, Bool.not_false, if_pos rfl]

theorem accepts_of_agree (h : ∀ r ∈ rules, ∀ r' ∈ rules, r.Matches origin → r'.Matches origin →
    r.Admits target → r'.Admits target) :
    federationAccepts origin (keyToCkString target) (keyHex target) rules = true ↔
      ∃ r ∈ rules, r.Matches origin ∧ r.Admits target := by
  induction rules with
  | nil => simp [federationAccepts]
  | cons rule rules ih =>
    by_cases hm : rule.Matches origin
    · rw [accepts_cons_matching hm]
      constructor
      · exact fun ha => ⟨rule, List.mem_cons_self, hm, ha⟩
      · rintro ⟨r, hr, hrm, hra⟩
        exact h r hr rule List.mem_cons_self hrm hm hra
    · rw [accepts_cons_other hm, ih fun r hr r' hr' =>
        h r (List.mem_cons_of_mem _ hr) r' (List.mem_cons_of_mem _ hr')]
      constructor
      · rintro ⟨r, hr, hrest⟩
        exact ⟨r, List.mem_cons_of_mem _ hr, hrest⟩
      · rintro ⟨r, hr, hrm, hra⟩
        obtain rfl | hr := List.mem_cons.1 hr
        · exact absurd hrm hm
        · exact ⟨r, hr, hrm, hra⟩

theorem allows_iff : hdFederationAllows policy origin target = true ↔ ¬ policy.Rejects origin ∧
    federationAccepts origin (keyToCkString target) (keyHex target) policy.acceptFrom = true := by
  unfold hdFederationAllows Rejects
  by_cases h : policy.rejectFrom.any (fun r => globMatch r origin) = true
  · rw [if_pos h]
    rw [List.any_eq_true] at h
    simp [h]
  · rw [if_neg h]
    rw [List.any_eq_true] at h
    simp [h]

theorem allows_rejected (h : policy.Rejects origin) :
    hdFederationAllows policy origin target = false := by
  rw [Bool.eq_false_iff, Ne, allows_iff]
  exact fun hallows => hallows.1 h

theorem allows_rejectOnly {before after : List Bytes} (h : policy.rejectFrom = before ++ after)
    (hdenied : hdFederationAllows policy origin target = false) :
    hdFederationAllows (policy.rejectOnly (before ++ pattern :: after)) origin target = false := by
  rw [Bool.eq_false_iff, Ne, allows_iff] at hdenied ⊢
  rintro ⟨hnot, haccepts⟩
  apply hdenied
  refine ⟨?_, haccepts⟩
  rintro ⟨r, hr, hm⟩
  rw [h, List.mem_append] at hr
  apply hnot
  refine ⟨r, ?_, hm⟩
  change r ∈ before ++ pattern :: after
  rw [List.mem_append, List.mem_cons]
  tauto

theorem orderFree_of_agree (h : policy.RulesAgree rule origin target) :
    policy.OrderFree rule pattern origin target := by
  obtain hrej | hagree := h
  · refine ⟨?_, ?_, ?_, fun _ _ => allows_rejectOnly⟩
    · rw [allows_rejected hrej]
      simp [Allowed, hrej]
    · intro rules _
      have honly : (policy.acceptOnly rules).Rejects origin := hrej
      rw [allows_rejected hrej, allows_rejected honly]
    · intro _ _ _ hallows
      rw [allows_rejected hrej] at hallows
      cases hallows
  · have hmem : ∀ r ∈ policy.acceptFrom, r ∈ rule :: policy.acceptFrom :=
      fun r hr => List.mem_cons_of_mem _ hr
    have hexact : hdFederationAllows policy origin target = true ↔
        policy.Allowed origin target := by
      rw [allows_iff, Allowed, accepts_of_agree fun r hr r' hr' => hagree r hr r' (hmem r' hr')]
    refine ⟨hexact, ?_, ?_, fun _ _ => allows_rejectOnly⟩
    · intro rules hperm
      rw [Bool.eq_iff_iff, hexact, allows_iff, Allowed]
      apply and_congr_right'
      have hsame : ∀ r, r ∈ rules ↔ r ∈ policy.acceptFrom := fun r => hperm.mem_iff
      change federationAccepts origin _ _ rules = true ↔ _
      rw [accepts_of_agree fun r hr r' hr' =>
        hagree r ((hsame r).1 hr) r' (hmem r' ((hsame r').1 hr'))]
      simp only [hsame]
    · intro before after hsplit hallows
      obtain ⟨hnot, r, hr, hrm, hra⟩ := hexact.1 hallows
      rw [allows_iff]
      refine ⟨hnot, ?_⟩
      have hall : ∀ r' ∈ before ++ rule :: after, r' ∈ rule :: policy.acceptFrom := by
        intro r' hr'
        rw [hsplit, List.mem_cons, List.mem_append]
        rw [List.mem_append, List.mem_cons] at hr'
        tauto
      have hback : r ∈ before ++ rule :: after := by
        rw [hsplit, List.mem_append] at hr
        rw [List.mem_append, List.mem_cons]
        tauto
      change federationAccepts origin _ _ (before ++ rule :: after) = true
      rw [accepts_of_agree fun _ _ r' hr' _ hm' _ => hagree r hr r' (hall r' hr') hrm hm' hra]
      exact ⟨r, hback, hrm, hra⟩

theorem OrderFree.agree (h : policy.OrderFree rule pattern origin target) :
    policy.RulesAgree rule origin target := by
  by_cases hrej : policy.Rejects origin
  · exact .inl hrej
  right
  intro r hr r' hr' hm hm' ha
  have hallows := h.exact.2 ⟨hrej, r, hr, hm, ha⟩
  -- the other rule decides once it stands in front
  have hfront : ∀ rules, hdFederationAllows (policy.acceptOnly (r' :: rules)) origin target = true →
      r'.Admits target :=
    fun rules hfirst => (accepts_cons_matching hm').1 (allows_iff.1 hfirst).2
  obtain rfl | hr' := List.mem_cons.1 hr'
  · exact hfront _ (h.accept [] policy.acceptFrom rfl hallows)
  · obtain ⟨before, after, hsplit⟩ := List.append_of_mem hr'
    apply hfront (before ++ after)
    rw [h.perm, hallows]
    rw [hsplit]
    exact List.perm_middle.symm

/-- Decisions do not depend on the order of the rules exactly when the rules for the origin agree
on the target. -/
theorem orderFree_iff (policy : HdFederationPolicy) (rule : HdFederationAccept) (pattern : Bytes)
    (origin : Bytes) (target : Key) :
    policy.OrderFree rule pattern origin target ↔ policy.RulesAgree rule origin target :=
  ⟨OrderFree.agree, orderFree_of_agree⟩

def overlapping : HdFederationPolicy where
  acceptFrom := [⟨[0x2a], [[0x63, 0x6b, 0x5f, 0x66, 0x2a]]⟩, ⟨[0x61], []⟩]

/-- The first of two overlapping rules denies what the second allows. -/
theorem not_orderFree_overlapping : ¬ ∀ (policy : HdFederationPolicy) (rule : HdFederationAccept)
    (pattern origin : Bytes) (target : Key), policy.OrderFree rule pattern origin target := by
  intro h
  have hexact := (h overlapping ⟨[], []⟩ [] [0x61] zeroKey).exact
  have hdenied : hdFederationAllows overlapping [0x61] zeroKey = false := by decide
  have hallowed : overlapping.Allowed [0x61] zeroKey := by
    refine ⟨?_, ⟨[0x61], []⟩, List.mem_cons_of_mem _ List.mem_cons_self, ?_, .inl rfl⟩
    · rintro ⟨r, hr, -⟩
      cases hr
    · change globMatch [0x61] [0x61] = true
      decide
  rw [hdenied] at hexact
  exact Bool.false_ne_true (hexact.2 hallowed)

end HdFederationPolicy

end HyperDerp
