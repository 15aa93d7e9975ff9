import FerrumNexus.Publishing.DestinationValues

/-!
# The gateway's own origins

The guard against an upstream that is the gateway: what it lets through, and
that on literals it compares destinations. With it the address checks are
functions of the value a literal names.
-/
namespace FerrumNexus.Publishing.Destinations

open Network

/-! ## The gateway's own origins -/

/-- Two addresses a connection to which ends at the same place, the local host counted once. -/
def SameDestination (a b : Address) : Prop :=
  destination a = destination b ∨
    (isLocal (destination a) = true ∧ isLocal (destination b) = true)

instance (a b : Address) : Decidable (SameDestination a b) := inferInstanceAs (Decidable (_ ∨ _))

theorem sameDestination_iff (a b : Address) :
    sameDestination (canonicalText (destination a)) (canonicalText (destination b)) = true ↔
      SameDestination a b := by
  simp only [sameDestination, isLocalHostAddress_eq, Bool.or_eq_true, Bool.and_eq_true, beq_iff_eq,
    canonicalText_injective.eq_iff, SameDestination]

/-- A hostname, bracketed or not, that is a literal without a zone index. -/
def Spells (hostname : Text) (address : Address) : Prop :=
  Names (stripBrackets hostname) address ∧ '%' ∉ hostname

theorem names_upstreamHost {hostname : Text} {address : Address} (h : Spells hostname address) :
    Names (upstreamHost hostname) address ∧ '%' ∉ upstreamHost hostname :=
  ⟨names_lower h.1, not_mem_lower h.1 (not_mem_stripBrackets h.2)⟩

/-- The round of the guard for a gateway origin that is a literal. -/
theorem assertNotOrigin_of_spells {upstream hostname : Text} {a b : Address}
    (hb : Spells hostname b) (resolve : UpstreamResolver) :
    assertNotOrigin upstream [canonicalText (destination a)] (canonicalText (destination a))
        resolve (some hostname) =
      if SameDestination b a then .error (.gatewayLoop upstream) else .ok () := by
  have hzone := not_mem_stripBrackets hb.2
  have hiff := sameDestination_iff b a
  simp only [assertNotOrigin, canonicalHost_of_names hb.1, canonicalText_injective.eq_iff,
    addressesForHost_of_names hb.1 hzone]
  by_cases hsame : destination b = destination a
  · simp [hsame, SameDestination]
    rfl
  · rw [if_neg hsame]
    change (if [canonicalText (destination b)].any (fun gateway =>
        [canonicalText (destination a)].any (sameDestination gateway)) = true
      then Except.error (Refusal.gatewayLoop upstream) else Except.ok ()) = _
    simp only [List.any_cons, List.any_nil, Bool.or_false, hiff]

/-- The lookup of an upstream never refuses. -/
theorem addressesForHost_optional (host : Text) (resolve : UpstreamResolver) :
    ∃ addresses, addressesForHost host resolve false = .ok addresses := by
  unfold addressesForHost
  simp only [Bool.false_and, Bool.false_eq_true, if_false]
  split_ifs
  · exact ⟨_, rfl⟩
  · exact ⟨_, rfl⟩
  · cases resolve (stripBrackets (normalizeHost host)) with
    | none => exact ⟨_, rfl⟩
    | some resolved => exact ⟨_, rfl⟩

/-- A gateway origin the upstream is told apart from. -/
def Apart (upstream : Text) (policy : UpstreamPolicy) (hostname : Text) : Prop :=
  canonicalHost (stripBrackets hostname) ≠ canonicalHost upstream ∧
    ∃ gateway own,
      addressesForHost (stripBrackets hostname) (policy.resolveGateway.getD policy.resolve) true =
        .ok gateway ∧
      addressesForHost upstream policy.resolve false = .ok own ∧
      ∀ x ∈ gateway, ∀ y ∈ own, sameDestination x y = false

theorem forM_eq_ok_iff {α ε : Type} (f : α → Except ε Unit) (xs : List α) :
    forM xs f = .ok () ↔ ∀ x ∈ xs, f x = .ok () := by
  induction xs with
  | nil => simp [pure, Except.pure]
  | cons x xs ih =>
    rw [List.forM_cons]
    cases h : f x with
    | error e => simp [bind, Except.bind, h]
    | ok u =>
      cases u
      simp [bind, Except.bind, h, ih]

/-- The guard lets an upstream through exactly if it is told apart from every origin. -/
theorem assertNotGatewayOrigin_eq_ok_iff (upstream : Text) (policy : UpstreamPolicy) :
    assertNotGatewayOrigin upstream policy = .ok () ↔
      ∀ hostname, some hostname ∈ policy.gatewayHostnames → Apart upstream policy hostname := by
  obtain ⟨own, hown⟩ := addressesForHost_optional upstream policy.resolve
  have hround (hostname : Text) : assertNotOrigin upstream own (canonicalHost upstream)
      (policy.resolveGateway.getD policy.resolve) (some hostname) = .ok () ↔
      Apart upstream policy hostname := by
    unfold assertNotOrigin Apart
    by_cases hsame : canonicalHost (stripBrackets hostname) = canonicalHost upstream
    · simp [hsame, bind, Except.bind]
    · cases hgate : addressesForHost (stripBrackets hostname)
          (policy.resolveGateway.getD policy.resolve) true with
      | error e => simp [hsame, hgate, bind, Except.bind]
      | ok gateway =>
        simp only [hsame, hgate, hown, if_false, pure, Except.pure, ne_eq, bind, Except.bind,
          not_false_eq_true, true_and, Except.ok.injEq, exists_and_left, ↓existsAndEq,
          List.any_eq_true]
        split_ifs with hloop
        · obtain ⟨x, hx, y, hy, hxy⟩ := hloop
          simp only [false_iff, not_forall]
          exact ⟨x, hx, y, hy, by simp [hxy]⟩
        · push Not at hloop
          simpa using hloop
  unfold assertNotGatewayOrigin
  split_ifs with hnil
  · simp [hnil]
  · rw [hown]
    simp only [bind, Except.bind, List.forM_eq_forM]
    refine (forM_eq_ok_iff _ _).trans ⟨fun h hostname hmem => ?_, fun h origin hmem => ?_⟩
    · exact (hround hostname).1 (h _ hmem)
    · cases origin with
      | none => rfl
      | some hostname => exact (hround hostname).2 (h hostname hmem)

theorem forM_eq_ok_or {α ε : Type} {f : α → Except ε Unit} {error : ε} {xs : List α}
    (h : ∀ x ∈ xs, f x = .ok () ∨ f x = .error error) :
    forM xs f = .ok () ∨ forM xs f = .error error := by
  induction xs with
  | nil => exact .inl rfl
  | cons x xs ih =>
    rw [List.forM_cons]
    rcases h x (by simp) with hx | hx
    · rw [hx]
      exact ih fun y hy => h y (by simp [hy])
    · rw [hx]
      exact .inr rfl

section Literals

variable {hostname : Text} {address : Address} {policy : UpstreamPolicy}
variable (hup : Spells hostname address)
variable (hgates : ∀ gate, some gate ∈ policy.gatewayHostnames → ∃ b, Spells gate b)
include hup hgates

/-- On literals the guard lets through or reports a loop. -/
theorem guard_ok_or_loop :
    assertNotGatewayOrigin (upstreamHost hostname) policy = .ok () ∨
      assertNotGatewayOrigin (upstreamHost hostname) policy =
        .error (.gatewayLoop (upstreamHost hostname)) := by
  obtain ⟨hnames, hzone⟩ := names_upstreamHost hup
  unfold assertNotGatewayOrigin
  split_ifs
  · exact .inl rfl
  · rw [addressesForHost_of_names hnames hzone, canonicalHost_of_names hnames]
    refine forM_eq_ok_or fun origin hmem => ?_
    cases origin with
    | none => exact .inl rfl
    | some gate =>
      obtain ⟨b, hb⟩ := hgates gate hmem
      rw [assertNotOrigin_of_spells hb]
      split_ifs
      · exact .inr rfl
      · exact .inl rfl

/-- On literals the guard refuses exactly an upstream with the destination of an origin. -/
theorem guard_eq_loop_iff :
    assertNotGatewayOrigin (upstreamHost hostname) policy =
        .error (.gatewayLoop (upstreamHost hostname)) ↔
      ∃ gate b, some gate ∈ policy.gatewayHostnames ∧ Spells gate b ∧
        SameDestination b address := by
  obtain ⟨hnames, hzone⟩ := names_upstreamHost hup
  have hapart (gate : Text) (b : Address) (hb : Spells gate b) :
      Apart (upstreamHost hostname) policy gate ↔ ¬ SameDestination b address := by
    unfold Apart
    simp only [canonicalHost_of_names hb.1, canonicalHost_of_names hnames,
      addressesForHost_of_names hb.1 (not_mem_stripBrackets hb.2),
      addressesForHost_of_names hnames hzone, canonicalText_injective.eq_iff, ne_eq,
      Except.ok.injEq, ↓existsAndEq, true_and, List.mem_singleton, forall_eq,
      ← Bool.not_eq_true, sameDestination_iff]
    exact ⟨fun h => h.2, fun h => ⟨fun he => h (.inl he), h⟩⟩
  have hok := assertNotGatewayOrigin_eq_ok_iff (upstreamHost hostname) policy
  constructor
  · intro hloop
    rw [hloop] at hok
    by_contra hnone
    have hpass : ∀ gate, some gate ∈ policy.gatewayHostnames →
        Apart (upstreamHost hostname) policy gate := by
      intro gate hmem
      obtain ⟨b, hb⟩ := hgates gate hmem
      exact (hapart gate b hb).2 fun hd => hnone ⟨gate, b, hmem, hb, hd⟩
    exact absurd (hok.2 hpass) (by simp)
  · rintro ⟨gate, b, hmem, hb, hd⟩
    rcases guard_ok_or_loop hup hgates with h | h
    · exact absurd hd ((hapart gate b hb).1 (hok.1 h gate hmem))
    · exact h

omit hgates in
/-- The whole policy on a literal: its destination decides, then the guard. -/
theorem assertUpstreamAllowed_of_spells :
    assertUpstreamAllowed (upstreamHost hostname) policy =
      if policy.allowPrivate = false ∧ isPublic address = false then
        .error (.privateUpstream (upstreamHost hostname) none)
      else assertNotGatewayOrigin (upstreamHost hostname) policy := by
  obtain ⟨hnames, hzone⟩ := names_upstreamHost hup
  have hip : isIP (upstreamHost hostname) ≠ 0 := (isIP_ne_zero_iff _).2 ⟨address, hnames⟩
  have hpublic := isPublicUpstreamHost_eq hnames hzone
  unfold assertUpstreamAllowed assertPublicDestination
  cases hallow : policy.allowPrivate with
  | true => simp
  | false =>
    cases hverdict : isPublic address with
    | true => simp [hpublic, hverdict, hip, bind, Except.bind]
    | false => simp [hpublic, hverdict, bind, Except.bind]

end Literals

/-! ## Addresses are judged by their value -/

/-- Addresses of one family with one value. -/
def SameValue : Address → Address → Prop
  | .v4 a, .v4 b => a.value = b.value
  | .v6 a, .v6 b => a.value = b.value
  | _, _ => False

theorem eq_of_sameValue {a b : Address} (h : SameValue a b) : a = b := by
  cases a with
  | v4 p =>
    cases b with
    | v4 q => exact congrArg _ (IPv4.value_injective h)
    | v6 q => exact h.elim
  | v6 p =>
    cases b with
    | v4 q => exact h.elim
    | v6 q => exact congrArg _ (IPv6.value_injective h)

/-- A text names at most one address. -/
theorem names_unique {text : Text} {a b : Address} (ha : Names text a) (hb : Names text b) :
    a = b := by
  cases a with
  | v4 p =>
    cases b with
    | v4 q => exact congrArg _ (IPv4.text_injective (Eq.trans ha (Eq.symm hb)))
    | v6 q =>
      obtain ⟨s, hs, -⟩ := hb
      have := (isIP_v4 p).symm.trans ((congrArg isIP (Eq.trans ha hs.symm)).trans (isIP_v6 s))
      exact absurd this (by decide)
  | v6 p =>
    obtain ⟨s, hs, rfl⟩ := ha
    cases b with
    | v4 q =>
      have := (isIP_v4 q).symm.trans ((congrArg isIP (Eq.trans hb hs.symm)).trans (isIP_v6 s))
      exact absurd this (by decide)
    | v6 q =>
      obtain ⟨t, ht, rfl⟩ := hb
      have hread := congrArg ipv6Hextets (hs.trans ht.symm)
      rw [Spelled.ipv6Hextets_text, Spelled.ipv6Hextets_text] at hread
      simpa [Spelling.address] using hread

/-- The literals of the policy are judged by value: each names one address; the verdict, on an
answer of the resolver and on a host bracketed or not, and the comparable form depend on its value
alone; an address that carries an IPv4 address is judged and spelled as that one; comparable forms
are equal exactly for one destination; and the guard refuses a literal exactly if it shares its
destination with an origin. -/
theorem judged_by_value :
    (∀ text, isIP text ≠ 0 → ∃! address, Names text address) ∧
    (∀ text other a b family, Names text a → Names other b → SameValue a b →
      isPublicResolvedAddress ⟨text, family⟩ = isPublicResolvedAddress ⟨other, family⟩ ∧
        canonicalAddress text = canonicalAddress other) ∧
    (∀ text address family, Names text address →
      isPublicResolvedAddress ⟨text, family⟩ = isPublic address) ∧
    (∀ hostname address, Spells hostname address →
      isPublicUpstreamHost (upstreamHost hostname) = isPublic address) ∧
    (∀ text other a q family, Names text (.v6 a) → Names other (.v4 q) →
      carried a.value = some q →
      isPublicResolvedAddress ⟨text, family⟩ = isPublicResolvedAddress ⟨other, family⟩ ∧
        canonicalAddress text = canonicalAddress other) ∧
    (∀ text other a b, Names text a → Names other b →
      (canonicalAddress text = canonicalAddress other ↔ destination a = destination b)) ∧
    (∀ hostname address policy, Spells hostname address →
      (∀ gate, some gate ∈ policy.gatewayHostnames → ∃ b, Spells gate b) →
      (assertNotGatewayOrigin (upstreamHost hostname) policy ≠ .ok () ↔
        ∃ gate b, some gate ∈ policy.gatewayHostnames ∧ Spells gate b ∧
          SameDestination b address)) ∧
    ∀ host policy, assertNotGatewayOrigin host policy = .ok () ↔
      ∀ hostname, some hostname ∈ policy.gatewayHostnames → Apart host policy hostname := by
  refine ⟨?_, ?_, ?_, ?_, ?_, ?_, ?_, assertNotGatewayOrigin_eq_ok_iff⟩
  · intro text h
    obtain ⟨address, hnames⟩ := (isIP_ne_zero_iff text).1 h
    exact ⟨address, hnames, fun other hother => names_unique hother hnames⟩
  · intro text other a b family ha hb hv
    obtain rfl := eq_of_sameValue hv
    rw [isPublicResolvedAddress_eq ha, isPublicResolvedAddress_eq hb, canonicalAddress_eq ha,
      canonicalAddress_eq hb]
    exact ⟨rfl, rfl⟩
  · intro text address family h
    exact isPublicResolvedAddress_eq h family
  · intro hostname address h
    obtain ⟨hnames, hzone⟩ := names_upstreamHost h
    exact isPublicUpstreamHost_eq hnames hzone
  · intro text other a q family ha hq hc
    have hd : destination (.v6 a) = .v4 q := by simp [destination, hc]
    rw [isPublicResolvedAddress_eq ha, isPublicResolvedAddress_eq hq, canonicalAddress_eq ha,
      canonicalAddress_eq hq, isPublic, hd]
    exact ⟨rfl, rfl⟩
  · intro text other a b ha hb
    rw [canonicalAddress_eq ha, canonicalAddress_eq hb, canonicalText_injective.eq_iff]
  · intro hostname address policy hup hgates
    rw [← guard_eq_loop_iff hup hgates]
    rcases guard_ok_or_loop hup hgates with h | h
    · simp [h]
    · simp [h]

/-- `::FFFF:10.0.0.1` and `10.0.0.1`. -/
theorem judged_by_value_mapped :
    isPublicResolvedAddress ⟨"::FFFF:10.0.0.1".toList, 6⟩ =
        isPublicResolvedAddress ⟨"10.0.0.1".toList, 6⟩ ∧
      canonicalAddress "::FFFF:10.0.0.1".toList = canonicalAddress "10.0.0.1".toList := by
  let spelling : Spelling :=
    ⟨[], some [⟨"FFFF".toList, by decide⟩], some ⟨10, 0, 0, 1⟩, [], rfl, by decide⟩
  have hmapped : Names "::FFFF:10.0.0.1".toList (.v6 spelling.address) :=
    ⟨spelling, by decide, rfl⟩
  have hplain : Names "10.0.0.1".toList (.v4 ⟨10, 0, 0, 1⟩) := by
    show IPv4.text ⟨10, 0, 0, 1⟩ = _
    decide
  exact judged_by_value.2.2.2.2.1 _ _ _ _ 6 hmapped hplain (by decide)

/-- An upstream on `127.0.0.2` is refused for a gateway on `127.0.0.1`, which no spelling of it
names. -/
theorem guard_refuses_other_loopback :
    Spells "127.0.0.2".toList (.v4 ⟨127, 0, 0, 2⟩) ∧
      Spells "127.0.0.1".toList (.v4 ⟨127, 0, 0, 1⟩) ∧
      canonicalAddress "127.0.0.2".toList ≠ canonicalAddress "127.0.0.1".toList ∧
      assertNotGatewayOrigin (upstreamHost "127.0.0.2".toList)
          ⟨false, [some "127.0.0.1".toList], none, fun _ => none⟩ =
        .error (.gatewayLoop "127.0.0.2".toList) := by
  have hnames (host : Text) (q : IPv4) (h : q.text = stripBrackets host) (hz : '%' ∉ host) :
      Spells host (.v4 q) := ⟨h, hz⟩
  refine ⟨hnames _ _ (by decide) (by decide), hnames _ _ (by decide) (by decide), by decide, ?_⟩
  decide

end FerrumNexus.Publishing.Destinations
