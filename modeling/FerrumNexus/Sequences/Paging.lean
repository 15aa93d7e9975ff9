import Mathlib.Tactic

/-!
# Paging through a listing that changes

A sorted listing is read page by page, and the offset of a page is the number of
entries on the pages before it. Between two pages the listing may change. Where
entries that were on a page stay, and entries that come in between two pages
stay, the offset never exceeds the length of the listing: an entry is passed over
only when another one is there in its place.
-/
namespace FerrumNexus.Sequences

section Pages

variable {A : Type} {p : A → Bool}

/-- A page of a listing that begins with all entries of one kind, read at an offset in these. -/
theorem filter_page {listing : List A} (h : listing.Pairwise fun a b => p b = true → p a = true)
    (offset limit : ℕ) : ((listing.drop offset).take limit).filter p =
      ((listing.filter p).drop offset).take limit := by
  induction listing generalizing offset limit with
  | nil => simp
  | cons first rest ih =>
    obtain ⟨hfirst, hrest⟩ := List.pairwise_cons.mp h
    by_cases hp : p first = true
    · rw [List.filter_cons_of_pos hp]
      cases offset with
      | succ offset => exact ih hrest offset limit
      | zero =>
        cases limit with
        | zero => simp
        | succ limit =>
          have htail := ih hrest 0 limit
          simp only [List.drop_zero] at htail ⊢
          rw [List.take_succ_cons, List.take_succ_cons, List.filter_cons_of_pos hp, htail]
    · have hnone : ∀ x ∈ first :: rest, ¬ p x = true := by
        intro x hx hpx
        rcases List.mem_cons.mp hx with rfl | hx
        · exact hp hpx
        · exact hp (hfirst x hx hpx)
      rw [List.filter_eq_nil_iff.mpr hnone, List.drop_nil, List.take_nil, List.filter_eq_nil_iff]
      exact fun x hx => hnone x (List.mem_of_mem_drop (List.mem_of_mem_take hx))

end Pages

section Paging

variable {R A : Type} (listing page : R → List A)

/-- Reads of a page each, of at most `limit` entries, and the offset behind the last of them. -/
inductive Paged (limit : ℕ) : List R → ℕ → Prop
  | start : Paged limit [] 0
  | read {reads : List R} {offset : ℕ} (read : R) (h : Paged limit reads offset)
      (hpage : page read = ((listing read).drop offset).take limit) :
      Paged limit (reads ++ [read]) (offset + (page read).length)

/-- A later listing has what was on an earlier page, and what came in between two earlier reads. -/
structure Lasting (reads : List R) (later : List A) : Prop where
  paged : ∀ read ∈ reads, ∀ x ∈ page read, x ∈ later
  entered : ∀ before after, [before, after].Sublist reads →
    ∀ x ∈ listing after, x ∉ listing before → x ∈ later

/-- Every listing is sorted and has what lasts of the reads before it. -/
def Orderly (before : A → A → Prop) (reads : List R) : Prop :=
  ∀ earlier read later, reads = earlier ++ read :: later →
    (listing read).Pairwise before ∧ Lasting listing page earlier (listing read)

/-- As many distinct entries as the offset counts are in every listing that may follow, and before
every entry that was always there and never on a page. -/
def Counted (before : A → A → Prop) (reads : List R) (offset : ℕ) : Prop :=
  ∃ first : List A, first.Nodup ∧ first.length = offset ∧
    (∀ later, Lasting listing page reads later → first ⊆ later) ∧
    ∀ x, (∀ read ∈ reads, x ∈ listing read ∧ x ∉ page read) → ∀ v ∈ first, before v x

variable {listing page} {before : A → A → Prop} {reads : List R} {limit offset : ℕ}

theorem Orderly.of_append {more : List R} (h : Orderly listing page before (reads ++ more)) :
    Orderly listing page before reads := by
  intro earlier read later heq
  exact h earlier read (later ++ more) (by simp [heq])

/-- Before an entry stand no more entries than its place in the listing. -/
theorem length_lt_of_before [Std.Irrefl before] [IsTrans A before] {sorted first : List A} {x : A}
    (hsorted : sorted.Pairwise before) (hnodup : first.Nodup) (hsub : first ⊆ sorted)
    (hbefore : ∀ v ∈ first, before v x) (hx : x ∈ sorted.take offset) : first.length < offset := by
  obtain ⟨front, back, htake⟩ := List.append_of_mem hx
  have hparts : sorted = front ++ x :: (back ++ sorted.drop offset) := by
    have hjoined := List.take_append_drop offset sorted
    rw [htake] at hjoined
    simpa using hjoined.symm
  have hshort : front.length < offset := by
    have hlength := congrArg List.length htake
    rw [List.length_take, List.length_append, List.length_cons] at hlength
    omega
  rw [hparts, List.pairwise_append] at hsorted
  obtain ⟨-, hbehind, -⟩ := hsorted
  have hfront : first ⊆ front := by
    intro v hv
    have hmem := hsub hv
    rw [hparts, List.mem_append, List.mem_cons] at hmem
    rcases hmem with hfront | rfl | hback
    · exact hfront
    · exact absurd (hbefore v hv) (irrefl_of before v)
    · have hcycle := trans_of before ((List.pairwise_cons.mp hbehind).1 v hback) (hbefore v hv)
      exact absurd hcycle (irrefl_of before x)
  exact lt_of_le_of_lt (hnodup.subperm hfront).length_le hshort

theorem counted_start : Counted listing page before [] 0 :=
  ⟨[], List.nodup_nil, rfl, fun _ _ => List.nil_subset _, by simp⟩

theorem Counted.le_length (h : Counted listing page before reads offset) {later : List A}
    (hlasting : Lasting listing page reads later) : offset ≤ later.length := by
  obtain ⟨first, hnodup, hlength, hlast, -⟩ := h
  rw [← hlength]
  exact (hnodup.subperm (hlast later hlasting)).length_le

/-- The next page counts the first entries of its own listing. -/
theorem Counted.read [Std.Irrefl before] [IsTrans A before]
    (h : Counted listing page before reads offset) {read : R}
    (hpage : page read = ((listing read).drop offset).take limit)
    (hsorted : (listing read).Pairwise before)
    (hlasting : Lasting listing page reads (listing read)) :
    Counted listing page before (reads ++ [read]) (offset + (page read).length) := by
  have hoffset := h.le_length hlasting
  obtain ⟨first, hnodup, hlength, hlast, hbefore⟩ := h
  have hnew : ((listing read).take offset ++ page read) <+: listing read := by
    rw [hpage]
    exact ⟨((listing read).drop offset).drop limit, by simp⟩
  -- an entry counted here that was always there and on no page would have been counted before
  have hknown : ∀ x ∈ (listing read).take offset,
      ¬ ∀ read ∈ reads, x ∈ listing read ∧ x ∉ page read := by
    intro x hx hthere
    have hlt := length_lt_of_before hsorted hnodup (hlast _ hlasting) (hbefore x hthere) hx
    omega
  have hlastly : read ∈ reads ++ [read] := List.mem_append_right _ (List.mem_singleton_self _)
  refine ⟨(listing read).take offset ++ page read, ?_, ?_, ?_, ?_⟩
  · have hdistinct : (listing read).Nodup := by
      apply hsorted.imp
      rintro a b hab rfl
      exact irrefl_of before a hab
    exact hdistinct.sublist hnew.sublist
  · rw [List.length_append, List.length_take, Nat.min_eq_left hoffset]
  · intro later hlater x hx
    rcases List.mem_append.mp hx with hold | hpaged
    · obtain ⟨known, hmem, hgone⟩ : ∃ known ∈ reads, x ∈ listing known → x ∈ page known := by
        simpa using hknown x hold
      by_cases hthere : x ∈ listing known
      · exact hlater.paged known (List.mem_append_left _ hmem) x (hgone hthere)
      · have hpair : [known, read].Sublist (reads ++ [read]) :=
          List.Sublist.append (List.singleton_sublist.mpr hmem) (List.Sublist.refl _)
        exact hlater.entered known read hpair x (List.mem_of_mem_take hold) hthere
    · exact hlater.paged read hlastly x hpaged
  · intro x hthere v hv
    obtain ⟨hmem, hunpaged⟩ := hthere read hlastly
    have hunknown : x ∉ (listing read).take offset := fun hx =>
      hknown x hx fun known hmem => hthere known (List.mem_append_left _ hmem)
    obtain ⟨rest, hrest⟩ := hnew
    rw [← hrest] at hsorted hmem
    have hbehind : x ∈ rest := by
      rcases List.mem_append.mp hmem with hfirst | hbehind
      · rcases List.mem_append.mp hfirst with hx | hx
        · exact absurd hx hunknown
        · exact absurd hx hunpaged
      · exact hbehind
    exact (List.pairwise_append.mp hsorted).2.2 v hv x hbehind

/-- The offset behind some pages is no larger than the listing that is read next. -/
theorem Paged.le_length [Std.Irrefl before] [IsTrans A before]
    (h : Paged listing page limit reads offset) {read : R}
    (horderly : Orderly listing page before (reads ++ [read])) :
    offset ≤ (listing read).length := by
  have hcounted : Counted listing page before reads offset := by
    have hbefore := horderly.of_append
    clear horderly
    induction h with
    | start => exact counted_start
    | read next h hpage ih =>
      obtain ⟨hsorted, hlasting⟩ := hbefore _ next [] rfl
      exact (ih hbefore.of_append).read hpage hsorted hlasting
  exact hcounted.le_length (horderly reads read [] rfl).2

end Paging

end FerrumNexus.Sequences
