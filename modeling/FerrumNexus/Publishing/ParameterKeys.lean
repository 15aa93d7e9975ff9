import FerrumNexus.Publishing.SpecComparison

/-!
# The identities of parameters

The key of a parameter spells its identity, the pair of its `in` and its `name`.
A document's parameters are keyed through memos, and the keys that come out are
those of the identities, however much was remembered. Each parameter object is
paid for once: `Ledger` is the account of what the keying has cost.
-/
namespace FerrumNexus.Publishing.SpecChanges

open OpenApi Platform Saga Metered

/-- The `(in, name)` identity of a parameter, the name of a header folded. -/
structure Identity where
  location : String
  name : String
  deriving DecidableEq

variable {ι κ ν : Type}

section Reading

variable (texts : Texts) (doc : Document ν)

def identityOf (parameter : ν) : Option Identity :=
  match string? (doc.own parameter "name"), string? (doc.own parameter "in") with
  | some name, some location =>
    some ⟨location, if location = "header" then texts.toLowerCase name else name⟩
  | _, _ => none

/-- The code units of a parameter's identity. -/
def identityText (parameter : ν) : ℕ :=
  match string? (doc.own parameter "name"), string? (doc.own parameter "in") with
  | some name, some location => utf16Length location + utf16Length name
  | _, _ => 0

def identityKey (identity : Identity) : String :=
  let place := compactSpecKey texts identity.location
  toString (utf16Length place) ++ ":" ++ place ++ "\x00" ++ compactSpecKey texts identity.name

/-- The parameter a resolution found. -/
def foundParameter : Option (OpenApiRefResolution ν) → Option ν
  | some (.ok parameter _) => some parameter
  | _ => none

variable [Fintype ν]

/-- The parameter a value is or refers to. -/
def parameterAt (value : Value ν) : Option ν :=
  foundParameter ((doc.record? (some value)).bind (walk doc false))

/-- The identity of a parameter as written. -/
def identityAt (value : Value ν) : Option Identity := (parameterAt doc value).bind (identityOf texts doc)

def keyedParameter (value : Value ν) : KeyedOpenApiParameter ν where
  parameter := value
  resolution := (doc.record? (some value)).bind (walk doc false)
  key := (identityAt texts doc value).map (identityKey texts)

end Reading

/-! ## Accounts -/

/-- `charge` with nothing new due, once the whole units are paid. -/
theorem KeyTextCharge.charge_zero {charge : KeyTextCharge}
    (h : charge.charged = charge.total / SPEC_KEY_CODE_UNITS_PER_UNIT) :
    charge.charge 0 = (0, charge) := by
  simp only [KeyTextCharge.charge, KeyTextCharge.spendUpTo, Nat.add_zero, h, Nat.sub_self,
    lt_self_iff_false, if_false]
  rw [← h]

theorem KeyTextCharge.charge_total (charge : KeyTextCharge) (codeUnits : ℕ) :
    (charge.charge codeUnits).2.total = charge.total + codeUnits := by
  simp only [KeyTextCharge.charge, KeyTextCharge.spendUpTo]
  split <;> rfl

theorem KeyTextCharge.charge_balanced {charge : KeyTextCharge} (codeUnits : ℕ)
    (h : charge.charged = charge.total / SPEC_KEY_CODE_UNITS_PER_UNIT) :
    (charge.charge codeUnits).2.charged =
        (charge.charge codeUnits).2.total / SPEC_KEY_CODE_UNITS_PER_UNIT ∧
      charge.charged + (charge.charge codeUnits).1 = (charge.charge codeUnits).2.charged := by
  have hle : charge.charged ≤ (charge.total + codeUnits) / SPEC_KEY_CODE_UNITS_PER_UNIT := by
    rw [h]
    exact Nat.div_le_div_right (Nat.le_add_right _ _)
  simp only [KeyTextCharge.charge, KeyTextCharge.spendUpTo]
  split
  · constructor
    · rfl
    · show charge.charged + _ = (charge.total + codeUnits) / SPEC_KEY_CODE_UNITS_PER_UNIT
      omega
  · constructor
    · show charge.charged = (charge.total + codeUnits) / SPEC_KEY_CODE_UNITS_PER_UNIT
      omega
    · show charge.charged + _ = charge.charged
      omega

/-- The memos once the key of a parameter is remembered. -/
def Caches.withKey [DecidableEq ν] (caches : Caches ν) (parameter : ν) (key : Option String) :
    Caches ν :=
  { caches with parameterKeys := Function.update caches.parameterKeys parameter (some key) }

section WithKey

variable [DecidableEq ν] (caches : Caches ν) (parameter : ν) (key : Option String)

@[simp] theorem Caches.withKey_refs : (caches.withKey parameter key).refs = caches.refs := rfl

@[simp] theorem Caches.withKey_self : (caches.withKey parameter key).parameterKeys parameter = some key :=
  Function.update_self parameter _ _

theorem Caches.withKey_ne {other : ν} (h : other ≠ parameter) :
    (caches.withKey parameter key).parameterKeys other = caches.parameterKeys other :=
  Function.update_of_ne h _ _

end WithKey

def Side.remember [DecidableEq ν] (side : Side ι κ ν) (parameter : ν) (key : Option String)
    (s : Comparison ι κ) : Comparison ι κ :=
  side.update ((side.caches s).withKey parameter key) s

/-- What an account of the keying of one document must bear: units paid for
something else, a reference resolved, and one of the `named` parameters keyed. -/
structure Accounted [DecidableEq ν] (texts : Texts) (side : Side ι κ ν) (named : ν → Prop)
    (I : ℕ → Comparison ι κ → ℕ → Prop) : Prop where
  pay {n s units} (amount : ℕ) (h : I n s units) : I (n + amount) s (units + amount)
  balanced {n s units} (h : I n s units) :
    s.keyText.charged = s.keyText.total / SPEC_KEY_CODE_UNITS_PER_UNIT
  sound {n s units} (h : I n s units) : SoundOutcomes side.document false (side.caches s).refs
  known {n s units} (h : I n s units) {parameter : ν} {key : Option String}
    (hkey : (side.caches s).parameterKeys parameter = some key) :
    key = (identityOf texts side.document parameter).map (identityKey texts)
  resolved {n s units} {refs : Outcomes ν} (h : I n s units)
    (hrefs : SoundOutcomes side.document false refs) :
    I n (side.update { side.caches s with refs := refs } s) units
  keyed {n s units} {parameter : ν} (h : I n s units) (hnamed : named parameter)
    (hnew : (side.caches s).parameterKeys parameter = none) :
    let charged := s.keyText.charge (identityText side.document parameter)
    let key := (identityOf texts side.document parameter).map (identityKey texts)
    I n (side.remember parameter key { s with keyText := charged.2 }) (units + charged.1)

theorem chargeKeyText_ends {s : Comparison ι κ} {units codeUnits : ℕ} :
    Ends (fun _ s' units' => s' = { s with keyText := (s.keyText.charge codeUnits).2 } ∧
      units' = units + (s.keyText.charge codeUnits).1) (chargeKeyText codeUnits) s units := by
  simp only [chargeKeyText, Ends, spendDue]
  split
  · rename_i hdue
    exact ⟨rfl, by rw [hdue, Nat.add_zero]⟩
  · exact ⟨rfl, rfl⟩

section Accounted

variable [DecidableEq ν] {texts : Texts} {side : Side ι κ ν} {named : ν → Prop}
variable {I : ℕ → Comparison ι κ → ℕ → Prop} (hI : Accounted texts side named I)
include hI

variable {n units : ℕ} {s : Comparison ι κ}

theorem Accounted.parameterKeyOf (h : I n s units) (parameter : ν) :
    Ends (fun key s' units' =>
        key = (identityOf texts side.document parameter).map (identityKey texts) ∧
        s' = { s with keyText := (s.keyText.charge (identityText side.document parameter)).2 } ∧
        units' = units + (s.keyText.charge (identityText side.document parameter)).1)
      (parameterKeyOf texts side parameter) s units := by
  have hzero := KeyTextCharge.charge_zero (hI.balanced h)
  unfold SpecChanges.parameterKeyOf identityOf identityText
  cases string? (side.document.own parameter "name") with
  | none =>
    simp only [hzero]
    exact ⟨rfl, rfl, rfl⟩
  | some name =>
    cases string? (side.document.own parameter "in") with
    | none =>
      simp only [hzero]
      exact ⟨rfl, rfl, rfl⟩
    | some location =>
      apply chargeKeyText_ends.bind
      rintro _ s' units' ⟨rfl, rfl⟩
      exact ⟨rfl, rfl, rfl⟩

theorem Accounted.keyOf (h : I n s units) (resolution : Option (OpenApiRefResolution ν))
    (hnamed : ∀ parameter, foundParameter resolution = some parameter → named parameter) :
    Ends (fun key s units =>
        key = ((foundParameter resolution).bind (identityOf texts side.document)).map
          (identityKey texts) ∧ I n s units) (keyOf texts side resolution) s units := by
  cases resolution with
  | none => exact ⟨rfl, h⟩
  | some resolution =>
    cases resolution with
    | failed ref reason => exact ⟨rfl, h⟩
    | ok parameter overrides =>
      simp only [SpecChanges.keyOf, Ends]
      cases hknown : (side.caches s).parameterKeys parameter with
      | some key => exact ⟨hI.known h hknown, h⟩
      | none =>
        apply (hI.parameterKeyOf h parameter).bind
        rintro key s' units' ⟨rfl, rfl, rfl⟩
        exact ⟨rfl, hI.keyed h (hnamed parameter rfl) hknown⟩

theorem Accounted.resolveParameter [Fintype ν] (h : I n s units) (value : Value ν) :
    Ends (fun resolution s units =>
        resolution = (side.document.record? (some value)).bind (walk side.document false) ∧ I n s units)
      (resolveParameter side value) s units := by
  unfold SpecChanges.resolveParameter
  cases side.document.record? (some value) with
  | none => exact ⟨rfl, h⟩
  | some id =>
    obtain ⟨refs, resolution, hresolve, hsound, hwalk⟩ := resolve_spec (hI.sound h) id
    simp only [resolveObject, step_bind, Ends, hresolve]
    exact ⟨hwalk.symm, hI.resolved h hsound⟩

theorem Accounted.keyOpenApiParameters [Fintype ν] (h : I n s units) (parameters : List (Value ν))
    (hnamed : ∀ value ∈ parameters, ∀ parameter,
      parameterAt side.document value = some parameter → named parameter) :
    Ends (fun keyed s units => keyed = parameters.map (keyedParameter texts side.document) ∧ I n s units)
      (keyOpenApiParameters texts side parameters) s units := by
  induction parameters generalizing s units with
  | nil => exact ⟨rfl, h⟩
  | cons parameter rest ih =>
    apply (hI.resolveParameter h parameter).bind
    rintro resolution s units ⟨rfl, h⟩
    apply (hI.keyOf h _ (hnamed parameter List.mem_cons_self)).bind
    rintro key s units ⟨rfl, h⟩
    have hrest := fun value hvalue => hnamed value (List.mem_cons_of_mem parameter hvalue)
    apply (ih h hrest).bind
    rintro keyed s units ⟨rfl, h⟩
    exact ⟨rfl, h⟩

end Accounted

/-! ## Keys spell identities -/

section Spelling

variable (texts : Texts) (doc : Document ν)

/-- The texts the parameters of a document are keyed by. -/
def IdentityText (text : String) : Prop :=
  ∃ parameter identity, identityOf texts doc parameter = some identity ∧
    (text = identity.location ∨ text = identity.name)

/-- The digests of the long ones tell them apart. -/
def NoCollision : Prop :=
  ∀ text text', IdentityText texts doc text → IdentityText texts doc text' →
    MAX_VERBATIM_KEY_LENGTH < utf16Length text → MAX_VERBATIM_KEY_LENGTH < utf16Length text' →
      texts.sha256 text = texts.sha256 text' → text = text'

end Spelling

theorem colon_not_mem_repr (n : ℕ) : ':' ∉ (Nat.repr n).toList := by
  intro hmem
  rw [Nat.toList_repr] at hmem
  exact absurd (Nat.isDigit_of_mem_toDigits (by decide) (by decide) hmem) (by decide)

theorem append_cons_inj {sep : Char} {xs ys us vs : List Char} (hxs : sep ∉ xs) (hys : sep ∉ ys)
    (h : xs ++ sep :: us = ys ++ sep :: vs) : xs = ys ∧ us = vs := by
  induction xs generalizing ys with
  | nil =>
    cases ys with
    | nil => exact ⟨rfl, (List.cons.inj h).2⟩
    | cons y ys =>
      have hhead : sep = y := (List.cons.inj h).1
      exact absurd List.mem_cons_self (hhead ▸ hys)
  | cons x xs ih =>
    cases ys with
    | nil =>
      have hhead : x = sep := (List.cons.inj h).1
      exact absurd List.mem_cons_self (hhead ▸ hxs)
    | cons y ys =>
      obtain ⟨hhead, htail⟩ := List.cons.inj h
      obtain ⟨hrest, hafter⟩ := ih (fun hmem => hxs (List.mem_cons_of_mem x hmem))
        (fun hmem => hys (List.mem_cons_of_mem y hmem)) htail
      exact ⟨by rw [hhead, hrest], hafter⟩

/-- A number written before a colon can be read back. -/
theorem repr_colon_inj {m n : ℕ} {us vs : List Char}
    (h : (Nat.repr m).toList ++ ':' :: us = (Nat.repr n).toList ++ ':' :: vs) : m = n ∧ us = vs := by
  obtain ⟨hrepr, hrest⟩ := append_cons_inj (colon_not_mem_repr m) (colon_not_mem_repr n) h
  refine ⟨?_, hrest⟩
  rw [Nat.toList_repr, Nat.toList_repr] at hrepr
  have hread (k : ℕ) : Nat.ofDigitChars 10 (Nat.toDigits 10 k) 0 = k :=
    Nat.ofDigitChars_toDigits (by decide) (by decide)
  rw [← hread m, hrepr, hread n]

theorem length_le_foldl (xs : List Char) (n : ℕ) :
    n + xs.length ≤ xs.foldl (fun n c => n + if 0xFFFF < c.toNat then 2 else 1) n := by
  induction xs generalizing n with
  | nil => simp
  | cons x xs ih =>
    have := ih (n + if 0xFFFF < x.toNat then 2 else 1)
    rw [List.foldl_cons, List.length_cons]
    split at this <;> split <;> omega

/-- A beginning of known length can be split off. -/
theorem append_inj_of_utf16Length {text text' : String} {us vs : List Char}
    (h : text.toList ++ us = text'.toList ++ vs) (hlength : utf16Length text = utf16Length text') :
    text = text' ∧ us = vs := by
  have hnil {xs ys : List Char} (hsame : (xs ++ ys).foldl
      (fun n c => n + if 0xFFFF < c.toNat then 2 else 1) 0 =
        xs.foldl (fun n c => n + if 0xFFFF < c.toNat then 2 else 1) 0) : ys = [] := by
    have hle := length_le_foldl ys (xs.foldl (fun n c => n + if 0xFFFF < c.toNat then 2 else 1) 0)
    rw [List.foldl_append] at hsame
    rw [hsame] at hle
    exact List.eq_nil_of_length_eq_zero (by omega)
  unfold utf16Length at hlength
  obtain ⟨more, hmore, hrest⟩ | ⟨more, hmore, hrest⟩ := List.append_eq_append_iff.1 h
  · rw [hmore] at hlength
    have hempty := hnil hlength.symm
    subst hempty
    exact ⟨String.toList_injective (by simpa using hmore.symm), by simpa using hrest⟩
  · rw [hmore] at hlength
    have hempty := hnil hlength
    subst hempty
    exact ⟨String.toList_injective (by simpa using hmore), by simpa using hrest.symm⟩

section Injective

variable {texts : Texts} {doc : Document ν}

theorem compactSpecKey_inj (hdoc : NoCollision texts doc) {text text' : String}
    (htext : IdentityText texts doc text) (htext' : IdentityText texts doc text')
    (h : compactSpecKey texts text = compactSpecKey texts text') : text = text' := by
  have hlist := congrArg String.toList h
  unfold compactSpecKey at hlist
  by_cases hlong : utf16Length text ≤ MAX_VERBATIM_KEY_LENGTH
  · by_cases hlong' : utf16Length text' ≤ MAX_VERBATIM_KEY_LENGTH
    · rw [if_pos hlong, if_pos hlong'] at hlist
      exact String.toList_injective (by simpa using hlist)
    · rw [if_pos hlong, if_neg hlong'] at hlist
      simp at hlist
  · by_cases hlong' : utf16Length text' ≤ MAX_VERBATIM_KEY_LENGTH
    · rw [if_neg hlong, if_pos hlong'] at hlist
      simp at hlist
    · rw [if_neg hlong, if_neg hlong'] at hlist
      have hdigest : (Nat.repr (utf16Length text)).toList ++ ':' :: (texts.sha256 text).toList =
          (Nat.repr (utf16Length text')).toList ++ ':' :: (texts.sha256 text').toList := by
        simpa using hlist
      have hsame := String.toList_injective (repr_colon_inj hdigest).2
      exact hdoc text text' htext htext' (by omega) (by omega) hsame

/-- Two parameters have one key exactly if they have one identity. -/
theorem identityKey_inj (hdoc : NoCollision texts doc) {parameter parameter' : ν}
    {identity identity' : Identity} (hparameter : identityOf texts doc parameter = some identity)
    (hparameter' : identityOf texts doc parameter' = some identity')
    (h : identityKey texts identity = identityKey texts identity') : identity = identity' := by
  have hlist := congrArg String.toList h
  have hparts :
      (Nat.repr (utf16Length (compactSpecKey texts identity.location))).toList ++ ':' ::
          ((compactSpecKey texts identity.location).toList ++ '\x00' ::
            (compactSpecKey texts identity.name).toList) =
        (Nat.repr (utf16Length (compactSpecKey texts identity'.location))).toList ++ ':' ::
          ((compactSpecKey texts identity'.location).toList ++ '\x00' ::
            (compactSpecKey texts identity'.name).toList) := by
    simpa [identityKey] using hlist
  obtain ⟨hlength, hrest⟩ := repr_colon_inj hparts
  obtain ⟨hplace, hname⟩ := append_inj_of_utf16Length hrest hlength
  have hlocation := compactSpecKey_inj hdoc ⟨parameter, identity, hparameter, .inl rfl⟩
    ⟨parameter', identity', hparameter', .inl rfl⟩ hplace
  have hfolded := compactSpecKey_inj hdoc ⟨parameter, identity, hparameter, .inr rfl⟩
    ⟨parameter', identity', hparameter', .inr rfl⟩ (String.toList_injective (List.cons.inj hname).2)
  cases identity
  cases identity'
  simp_all

end Injective

end FerrumNexus.Publishing.SpecChanges
