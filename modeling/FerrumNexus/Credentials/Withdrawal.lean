import FerrumNexus.Credentials.MirrorRuns

/-!
# Taking an append back

A failed issue, a failed row write and a failed rotation all end in
`withdrawAppendedEntry`. The append may have been applied or not, and so may the
delete a rotation pairs with it, so the array the withdrawal reads is one of
four. It is one entry longer than the append index for the one array that still
ends in the new entry, and only there is a delete issued.
-/
namespace FerrumNexus.Credentials

open Saga Platform Portal

/-- The delete a rotation pairs with its append: the position of the entry it
replaces, and the fingerprint of that entry's row. -/
def removePaired (consumerId : ConsumerId) (type : CredentialType) :
    Option (ℕ × ℕ) → CredentialService Unit
  | none => pure ()
  | some (position, intended) => removeAt consumerId type (.index position) intended

/-- What comes before a withdrawal on the gateway: the append, and the delete
paired with it, each with whatever outcome it has. -/
def appendPaired (consumerId : ConsumerId) (type : CredentialType) (material : ℕ)
    (paired : Option (ℕ × ℕ)) : CredentialService Unit := do
  bestEffort (addCredential consumerId type material)
  bestEffort (removePaired consumerId type paired)

section Arrays

variable {c : ConsumerId} {t : CredentialType} {before : List ℕ} {material : ℕ} {s : World}

/-- One step on the array: it is left as it is, or the appended entry comes off
its end. -/
def TakesBack (before : List ℕ) (material : ℕ) (array array' : List ℕ) : Prop :=
  array' = array ∨ (array = before ++ [material] ∧ array' = before)

theorem TakesBack.keeps {array array' : List ℕ} (h : TakesBack before material array array')
    {entry : ℕ} (hbefore : entry ∈ before) (hm : entry ∈ array) : entry ∈ array' := by
  rcases h with rfl | ⟨-, rfl⟩
  · exact hm
  · exact hbefore

/-- What the append and the paired delete leave: of the arrays they may leave,
one alone is longer than the array was, and it ends in the new entry. -/
structure AppendShape (c : ConsumerId) (t : CredentialType) (before : List ℕ) (material : ℕ)
    (s : World) : Prop where
  consumer : (s.consumers c).isSome
  longest : t ≠ .basicauth → (entries s c t).length = before.length + 1 →
    entries s c t = before ++ [material]

theorem consumers_setEntries (hc : (s.consumers c).isSome) (array : List ℕ) :
    ((setEntries c t array s).consumers c).isSome := by
  obtain ⟨consumer, hconsumer⟩ := Option.isSome_iff_exists.mp hc
  simp [setEntries, hconsumer]

/-- After the append: the array as it was, or longer by the new entry. -/
theorem wpe_addCredential (hc : (s.consumers c).isSome) (E : NexusError → World → Prop)
    (hE : ∀ e s', (s'.consumers c).isSome → (entries s' c t = entries s c t ∨
      entries s' c t = entries s c t ++ [material]) → E e s') :
    wpe Eq (fun _ _ => True) (addCredential c t material)
      (fun _ s' => (s'.consumers c).isSome ∧ entries s' c t = entries s c t ++ [material]) E s := by
  obtain ⟨consumer, hconsumer⟩ := Option.isSome_iff_exists.mp hc
  have hentries := entries_setEntries (t := t) hconsumer (entries s c t ++ [material])
  have hpresent := consumers_setEntries (t := t) hc (entries s c t ++ [material])
  rw [addCredential]
  apply wpe_edgeWrite
  · rintro _ rfl a s' hok
    simp only [hconsumer, Except.ok.injEq, Prod.mk.injEq] at hok
    obtain ⟨-, rfl⟩ := hok
    exact ⟨trivial, ⟨hpresent, hentries⟩, fun _ _ => hE _ _ hpresent (.inr hentries)⟩
  · rintro _ rfl e herr
    simp [hconsumer] at herr
  · rintro _ rfl
    exact ⟨trivial, fun _ => hE _ _ hc (.inl rfl)⟩

/-- A delete by position shortens the array by one entry, or changes nothing. -/
theorem wpe_deleteCredentialAt {G : World → World → Prop} {index intended : ℕ}
    {Q : Unit → World → Prop} {E : NexusError → World → Prop} (hc : (s.consumers c).isSome)
    (hsame : G s s ∧ ∀ e, E e s)
    (happlied : ∀ s', (s'.consumers c).isSome → index < (entries s c t).length →
      entries s' c t = (entries s c t).eraseIdx index → G s s' ∧ Q () s' ∧ ∀ e, E e s') :
    wpe Eq G (deleteCredentialAt c t index intended) Q E s := by
  obtain ⟨consumer, hconsumer⟩ := Option.isSome_iff_exists.mp hc
  rw [deleteCredentialAt]
  apply wpe_edgeWrite
  · rintro _ rfl a s' hok
    simp only [hconsumer] at hok
    split at hok
    · rename_i removed _ hremoved
      cases hok
      have hlt : index < (entries s c t).length := (List.getElem?_eq_some_iff.mp hremoved).1
      obtain ⟨hG, hQ, hE⟩ := happlied
        { setEntries c t ((entries s c t).eraseIdx index) s with
          removals := ⟨intended, _⟩ :: s.removals }
        (consumers_setEntries hc _) hlt (entries_setEntries hconsumer _)
      exact ⟨hG, hQ, fun _ _ => hE _⟩
    · cases hok
  · rintro _ rfl e _
    exact hsame.2 e
  · rintro _ rfl
    exact ⟨hsame.1, fun _ => hsame.2 _⟩

/-- The four arrays: as before, longer by the new entry, and each of these
without the entry a rotation replaces. -/
theorem wpe_appendPaired (hc : (s.consumers c).isSome) {paired : Option (ℕ × ℕ)}
    (hpaired : t ≠ .basicauth → ∀ p ∈ paired, p.1 < (entries s c t).length)
    (E : NexusError → World → Prop) :
    wpe Eq (fun _ _ => True) (appendPaired c t material paired)
      (fun _ s' => AppendShape c t (entries s c t) material s') E s := by
  have hpair : ∀ s', (s'.consumers c).isSome → (entries s' c t = entries s c t ∨
      entries s' c t = entries s c t ++ [material]) →
      wpe Eq (fun _ _ => True) (bestEffort (removePaired c t paired))
        (fun _ s'' => AppendShape c t (entries s c t) material s'') E s' := by
    intro s' hpresent hentries
    have hgrown : AppendShape c t (entries s c t) material s' := by
      refine ⟨hpresent, fun _ hlength => hentries.resolve_left fun h => ?_⟩
      rw [h] at hlength
      omega
    apply wpe_bestEffort
    cases paired with
    | none => exact hgrown
    | some p =>
      apply wpe_deleteCredentialAt hpresent ⟨trivial, fun _ => hgrown⟩
      intro s'' hpresent' _ herased
      -- a position of the old array: the result is no longer than that array was
      have hshape : AppendShape c t (entries s c t) material s'' := by
        refine ⟨hpresent', fun ht hlength => ?_⟩
        have hlt : p.1 < (entries s c t).length := hpaired ht p rfl
        rcases hentries with h | h
        · rw [herased, h, List.length_eraseIdx_of_lt hlt] at hlength
          omega
        · have hlt' : p.1 < (entries s c t ++ [material]).length := by
            rw [List.length_append]
            omega
          rw [herased, h, List.length_eraseIdx_of_lt hlt', List.length_append,
            List.length_singleton] at hlength
          omega
      exact ⟨trivial, hshape, fun _ => hshape⟩
  rw [appendPaired, wpe_bind]
  apply wpe_bestEffort
  refine wpe_mono (wpe_addCredential hc _ fun e s' => hpair s') ?_ fun _ _ he => he
  exact fun _ s' hs' => hpair s' hs'.1 (.inr hs'.2)

/-! ## The withdrawal -/

/-- What the three flags and the array say once the withdrawal is over. -/
structure Withdrawn (c : ConsumerId) (t : CredentialType) (before : List ℕ) (material : ℕ)
    (s : World) (w : AppendWithdrawal) (s' : World) : Prop where
  taken : TakesBack before material (entries s c t) (entries s' c t)
  gone : w.withdrawn = true → entries s' c t = before
  asAppended : w.arrayAsAppended = true → before <+: entries s' c t

/-- Nothing was written, and no flag was set. -/
theorem withdrawn_idle (length : Option ℕ) :
    Withdrawn c t before material s ⟨false, false, length⟩ s :=
  ⟨.inl rfl, nofun, nofun⟩

theorem listed_length (ht : t ≠ .basicauth) {consumer : EdgeConsumer}
    (hc : s.consumers c = some consumer) :
    (listed (projection s consumer) t).length = (entries s c t).length := by
  simp [listed, projection, ht, entries, hc]

/-- What a read under the key answers, if it answers. -/
theorem wpe_reread {G : World → World → Prop} {Q : Option (Option ConsumerView) → World → Prop}
    {E : NexusError → World → Prop} {consumer : EdgeConsumer} (hc : s.consumers c = some consumer)
    (hG : G s s) (hnone : Q none s) (hsome : Q (some (some (projection s consumer))) s) :
    wpe Eq G (swallow (getConsumer c)) Q E s := by
  rw [wpe_swallow, getConsumer]
  apply wpe_edgeRead
  rintro _ rfl
  refine ⟨hG, ?_, fun _ => hnone⟩
  rw [hc]
  exact hsome

/-- What the read after a failed delete concludes is right. -/
theorem withdrawn_after (ht : t ≠ .basicauth) {consumer : EdgeConsumer} {s' : World}
    (hc : s'.consumers c = some consumer) (hs : entries s c t = before ++ [material])
    (hs' : entries s' c t = before ++ [material] ∨ entries s' c t = before) :
    Withdrawn c t before material s
      (withdrawalAfter before.length t (some (some (projection s' consumer)))) s' := by
  have hlength := listed_length ht hc
  have htaken : TakesBack before material (entries s c t) (entries s' c t) :=
    hs'.imp (fun h => h.trans hs.symm) fun h => ⟨hs, h⟩
  unfold withdrawalAfter
  simp only [hlength]
  rcases hs' with h | h
  · refine ⟨htaken, ?_, ?_⟩
    · simp [h]
    · exact fun _ => h ▸ List.prefix_append _ _
  · refine ⟨htaken, fun _ => h, fun _ => h ▸ List.prefix_refl _⟩

theorem wpe_withdrawAppendedEntry (hshape : AppendShape c t before material s) {appendIndex : ℕ}
    (hindex : t ≠ .basicauth → appendIndex = before.length) (E : NexusError → World → Prop) :
    wpe Eq (fun s₁ s₂ => TakesBack before material (entries s₁ c t) (entries s₂ c t))
      (withdrawAppendedEntry c t appendIndex material)
      (fun w s' => Withdrawn c t before material s w s') E s := by
  obtain ⟨consumer, hconsumer⟩ := Option.isSome_iff_exists.mp hshape.consumer
  unfold withdrawAppendedEntry
  split
  · exact withdrawn_idle none
  rename_i ht
  obtain rfl := hindex ht
  rw [wpe_bind]
  apply wpe_reread hconsumer (.inl rfl)
  · exact withdrawn_idle none
  simp only
  split
  · exact withdrawn_idle _
  rename_i shown _
  split
  · exact withdrawn_idle _
  rename_i hmatches
  rw [not_or, not_not, listed_length ht hconsumer] at hmatches
  have hentries := hshape.longest ht hmatches.1
  have herase : (entries s c t).eraseIdx before.length = before := by
    rw [hentries, List.eraseIdx_append_of_length_le le_rfl]
    simp
  rw [wpe_tryCatch, wpe_bind]
  have hreread : ∀ s', (s'.consumers c).isSome →
      (entries s' c t = before ++ [material] ∨ entries s' c t = before) →
      wpe Eq (fun s₁ s₂ => TakesBack before material (entries s₁ c t) (entries s₂ c t))
        (do
          let after ← swallow (getConsumer c)
          pure (withdrawalAfter before.length t after))
        (fun w s' => Withdrawn c t before material s w s') E s' := by
    intro s' hpresent hs'
    obtain ⟨consumer', hconsumer'⟩ := Option.isSome_iff_exists.mp hpresent
    rw [wpe_bind]
    apply wpe_reread hconsumer' (.inl rfl)
    · exact ⟨hs'.imp (fun h => h.trans hentries.symm) fun h => ⟨hentries, h⟩, nofun, nofun⟩
    · exact withdrawn_after ht hconsumer' hentries hs'
  apply wpe_deleteCredentialAt hshape.consumer
  · exact ⟨.inl rfl, fun _ => hreread s hshape.consumer (.inl hentries)⟩
  · intro s' hpresent _ hs'
    rw [herase] at hs'
    have htaken : TakesBack before material (entries s c t) (entries s' c t) :=
      .inr ⟨hentries, hs'⟩
    refine ⟨htaken, ⟨htaken, fun _ => hs', fun _ => hs' ▸ List.prefix_refl _⟩, fun _ => ?_⟩
    exact hreread s' hpresent (.inr hs')

/-- The one delete of a withdrawal, and where it is issued. -/
theorem once_withdrawAppendedEntry (hc : (s.consumers c).isSome) (appendIndex : ℕ) :
    Once (deleteCredentialAt c t appendIndex material).run
      (fun s' => t ≠ .basicauth ∧ (entries s' c t).length = appendIndex + 1)
      (withdrawAppendedEntry c t appendIndex material).run s := by
  obtain ⟨consumer, hconsumer⟩ := Option.isSome_iff_exists.mp hc
  unfold withdrawAppendedEntry
  split
  · exact once_pure _ s
  rename_i ht
  refine (reads_edgeRead _).swallow.once ?_
  apply wpe_reread hconsumer rfl
  · exact fun _ => once_pure _ s
  intro _
  simp only
  split
  · exact once_pure _ s
  split
  · exact once_pure _ s
  rename_i hmatches
  rw [not_or, not_not, listed_length ht hconsumer] at hmatches
  refine once_attempt ⟨ht, hmatches.1⟩ fun _ => ?_
  exact (reads_edgeRead _).swallow.bind fun _ => reads_pure _

end Arrays

/-! ## The claim of the callers -/

section Callers

variable {c : ConsumerId} {t : CredentialType} {s : World}

theorem edgeArrayLength_listed (ht : t ≠ .basicauth) {consumer : EdgeConsumer}
    (hc : s.consumers c = some consumer) (fallback : ℕ) :
    edgeArrayLength (projection s consumer) t fallback = (entries s c t).length := by
  rw [edgeArrayLength, if_neg ht, listed_length ht hc]

/-- A withdrawal that costs no older key: one delete at most, at the append
index, while the array is one entry longer than it, and none for HTTP Basic;
every step leaves the array or takes the appended entry off its end; and the
flags it answers with are true. -/
structure Sparing (c : ConsumerId) (t : CredentialType) (before : List ℕ)
    (appendIndex material : ℕ) (s₁ : World) : Prop where
  once : Once (deleteCredentialAt c t appendIndex material).run
    (fun s' => t ≠ .basicauth ∧ (entries s' c t).length = appendIndex + 1)
    (withdrawAppendedEntry c t appendIndex material).run s₁
  outcome : wpe Eq (fun s' s'' => TakesBack before material (entries s' c t) (entries s'' c t))
    (withdrawAppendedEntry c t appendIndex material)
    (fun w s₂ =>
      (∀ entry ∈ before, entry ∈ entries s₁ c t → entry ∈ entries s₂ c t) ∧
      (w.withdrawn = true → entries s₂ c t = before ∧
        (material ∉ before → material ∉ entries s₂ c t)) ∧
      (w.arrayAsAppended = true → before <+: entries s₂ c t))
    (fun _ _ => False) s₁

/-- From any array, with the append index read from it, whatever the append and
the delete paired with it came to and whichever reads fail: the withdrawal costs
no older key. -/
theorem withdrawal_spares_older_entries {consumer : EdgeConsumer}
    (hc : s.consumers c = some consumer) (fallback material : ℕ) (paired : Option (ℕ × ℕ))
    (hpaired : ∀ p ∈ paired, p.1 < edgeArrayLength (projection s consumer) t fallback) :
    wpe Eq (fun _ _ => True) (appendPaired c t material paired)
      (fun _ s₁ => Sparing c t (entries s c t)
        (edgeArrayLength (projection s consumer) t fallback) material s₁)
      (fun _ _ => False) s := by
  have hindex : t ≠ .basicauth →
      edgeArrayLength (projection s consumer) t fallback = (entries s c t).length := fun ht =>
    edgeArrayLength_listed ht hc fallback
  have hbefore : t ≠ .basicauth → ∀ p ∈ paired, p.1 < (entries s c t).length := fun ht p hp =>
    (hpaired p hp).trans_eq (hindex ht)
  refine wpe_mono (wpe_appendPaired (by simp [hc]) hbefore _) ?_ fun _ _ he => he
  intro _ s₁ hshape
  refine ⟨once_withdrawAppendedEntry hshape.consumer _, ?_⟩
  refine wpe_mono (wpe_withdrawAppendedEntry hshape hindex _) ?_ fun _ _ he => he
  intro w s₂ hw
  refine ⟨fun entry hb => hw.taken.keeps hb, fun hgone => ?_, hw.asAppended⟩
  have hs₂ := hw.gone hgone
  exact ⟨hs₂, fun hfresh => hs₂ ▸ hfresh⟩

/-- An account that holds the keys 7 and 8. -/
def twoKeys : World := setEntries ownConsumer .keyauth [7, 8] newAccount

/-- The rotation of the key 8 into 9. -/
theorem withdrawal_spares_older_entries_rotation :
    (twoKeys.consumers ownConsumer).isSome ∧
      wpe Eq (fun _ _ => True) (appendPaired ownConsumer .keyauth 9 (some (1, 8)))
        (fun _ s₁ => Sparing ownConsumer .keyauth [7, 8] 2 9 s₁) (fun _ _ => False) twoKeys :=
  ⟨rfl, @withdrawal_spares_older_entries ownConsumer .keyauth twoKeys _ rfl 0 9 (some (1, 8))
    fun p hp => by cases hp; decide⟩

end Callers

end FerrumNexus.Credentials
