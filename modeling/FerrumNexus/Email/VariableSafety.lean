import FerrumNexus.Email.DecodedValues
import FerrumNexus.Sequences.Scanning

/-!
# Where variables may stand

A template that is accepted can still have a placeholder between the names of a
tag's attributes, or be the value of an attribute that is not quoted, where what
is escaped is markup all the same. Where no placeholder stands there, the values
of the variables are text, or the whole of a quoted value.
-/
namespace FerrumNexus.Email

open Platform Sequences Network

variable {config : LinkConfig} {text : List Char}

/-! ## What is checked -/

/-- What is known of an attribute that was not refused. -/
structure Checked (config : LinkConfig) (found : Attribute) (key value : List Char) : Prop where
  named : ∃ name, decodeEntities found.name = .ok name ∧ key = config.toLowerCase name
  decoded : decodeEntities found.value.text = .ok value
  whole : matchAll placeholder value = [] ∨
    ∃ p, matchAll placeholder value = [p] ∧ p.text = trimmed value
  leads : URL_ATTRIBUTES.contains key = true ∨ matchAll placeholder value ≠ [] →
    ∀ target ∈ destinationsOf key value, ∃ construct, destination config target construct = .ok ()

variable {before after key space tagName value : List Char} {p q : Placeholder}

theorem trimmed_parts (text : List Char) : ∃ space space', text = space ++ (trimmed text ++ space') ∧
    space.all isWhiteSpace = true ∧ space'.all isWhiteSpace = true := by
  refine ⟨text.takeWhile isWhiteSpace, (text.dropWhile isWhiteSpace).rtakeWhile isWhiteSpace, ?_,
    List.all_takeWhile, ?_⟩
  · rw [trimmed, List.rdropWhile_append_rtakeWhile, List.takeWhile_append_dropWhile]
  · rw [List.all_eq_true]
    intro c hc
    exact List.mem_rtakeWhile_imp hc

/-- What stands between the braces. -/
def Placeholder.inner (p : Placeholder) : List Char := p.before ++ (p.name ++ p.after)

theorem Placeholder.text_append (p : Placeholder) (rest : List Char) :
    p.text ++ rest = '{' :: '{' :: (p.inner ++ '}' :: '}' :: rest) := by
  simp [Placeholder.text, Placeholder.inner]

theorem Placeholder.mem_inner {c : Char} (h : c ∈ p.inner) :
    isWhiteSpace c = true ∨ isWord c = true := by
  simp only [Placeholder.inner, List.mem_append] at h
  rcases h with h | h | h
  · exact Or.inl (List.all_eq_true.mp p.blankBefore c h)
  · exact Or.inr (List.all_eq_true.mp p.word c h)
  · exact Or.inl (List.all_eq_true.mp p.blankAfter c h)

theorem Placeholder.brace_not_mem_inner (p : Placeholder) : '{' ∉ p.inner ∧ '}' ∉ p.inner := by
  constructor
  · intro h
    rcases Placeholder.mem_inner h with h | h <;> exact absurd h (by decide)
  · intro h
    rcases Placeholder.mem_inner h with h | h <;> exact absurd h (by decide)

theorem Placeholder.eq_of_text (h : p.text = q.text) : p = q := by
  have hp := placeholder_text p []
  rw [h, placeholder_text] at hp
  exact (Prod.mk.inj (Option.some_inj.mp hp)).1.symm

theorem not_mem_of_blank (h : space.all isWhiteSpace = true) {c : Char}
    (hc : isWhiteSpace c = false) : c ∉ space := by
  intro hmem
  rw [List.all_eq_true.mp h c hmem] at hc
  exact absurd hc (by decide)

theorem count_brace (before after : List Char) (p : Placeholder) :
    (before ++ (p.text ++ after)).count '{' = before.count '{' + 2 + after.count '{' := by
  have hinner : p.inner.count '{' = 0 := List.count_eq_zero.mpr p.brace_not_mem_inner.1
  rw [p.text_append]
  simp only [List.count_append, List.count_cons, hinner]
  simp
  omega

/-- A placeholder between white space is the only one, and is where any other is. -/
theorem placeholder_unique {space' : List Char}
    (h : before ++ (p.text ++ after) = space ++ (q.text ++ space'))
    (hspace : space.all isWhiteSpace = true) (hspace' : space'.all isWhiteSpace = true) :
    before = space ∧ p = q ∧ after = space' := by
  have hout := not_mem_of_blank hspace (c := '{') (by decide)
  have hout' := not_mem_of_blank hspace' (c := '{') (by decide)
  have hcount : before.count '{' + 2 + after.count '{' = space.count '{' + 2 + space'.count '{' := by
    rw [← count_brace, ← count_brace, h]
  rw [List.count_eq_zero.mpr hout, List.count_eq_zero.mpr hout'] at hcount
  have hbefore : '{' ∉ before := List.count_eq_zero.mp (by omega)
  rw [p.text_append, q.text_append] at h
  obtain ⟨rfl, hrest⟩ := cut_unique h hbefore hout
  obtain ⟨hinner, hafter⟩ := cut_unique (List.cons.inj hrest).2 p.brace_not_mem_inner.2
    q.brace_not_mem_inner.2
  refine ⟨rfl, Placeholder.eq_of_text ?_, (List.cons.inj hafter).2⟩
  have hp := p.text_append []
  have hq := q.text_append []
  rw [List.append_nil] at hp hq
  rw [hp, hq, hinner]

/-- A placeholder decodes to itself. -/
theorem decodeEntities_placeholder {decoded : List Char} :
    decodeEntities (before ++ (p.text ++ after)) = .ok decoded ↔
      ∃ first last, decodeEntities before = .ok first ∧ decodeEntities after = .ok last ∧
        decoded = first ++ (p.text ++ last) := by
  have hmiddle : decodeEntities ('{' :: (p.inner ++ ['}'])) = .ok ('{' :: (p.inner ++ ['}'])) := by
    apply decodeEntities_of_not_mem
    intro hmem
    simp only [List.mem_cons, List.mem_append, List.not_mem_nil, or_false] at hmem
    rcases hmem with hbrace | hinner | hbrace
    · exact absurd hbrace (by decide)
    · rcases Placeholder.mem_inner hinner with h | h <;> exact absurd h (by decide)
    · exact absurd hbrace (by decide)
  have hsplit (rest : List Char) :
      p.text ++ rest = '{' :: (('{' :: (p.inner ++ ['}'])) ++ '}' :: rest) := by
    rw [p.text_append]
    simp
  rw [hsplit, decodeEntities_append (by decide)]
  constructor
  · rintro ⟨first, later, hfirst, hlater, rfl⟩
    obtain ⟨middle, last, hmid, hlast, rfl⟩ := (decodeEntities_append (by decide)).mp hlater
    obtain rfl := Except.ok.inj (hmiddle.symm.trans hmid)
    exact ⟨first, last, hfirst, hlast, by rw [hsplit]⟩
  · rintro ⟨first, last, hfirst, hlast, rfl⟩
    refine ⟨first, _, hfirst, ?_, by rw [hsplit]⟩
    exact (decodeEntities_append (by decide)).mpr ⟨_, last, hmiddle, hlast, rfl⟩

/-- A value with a placeholder in it is the placeholder, with white space around it. -/
structure Whole (value : List Char) (p : Placeholder) (before after blank blank' : List Char) :
    Prop where
  value : value = before ++ (p.text ++ after)
  before : decodeEntities before = .ok blank
  after : decodeEntities after = .ok blank'
  blankBefore : blank.all isWhiteSpace = true
  blankAfter : blank'.all isWhiteSpace = true

theorem Checked.whole_of_placeholder {found : Attribute} (h : Checked config found key value)
    (hraw : matchAll placeholder found.value.text ≠ []) :
    ∃ p before after blank blank', Whole found.value.text p before after blank blank' ∧
      value = blank ++ (p.text ++ blank') ∧ matchAll placeholder value = [p] := by
  obtain ⟨before, p, after, htext⟩ := exists_placeholder_of_matchAll hraw
  have hdecoded := h.decoded
  rw [htext, decodeEntities_placeholder] at hdecoded
  obtain ⟨blank, blank', hblank, hblank', rfl⟩ := hdecoded
  have hne := matchAll_ne_nil_of_placeholder blank p blank'
  obtain ⟨q, hq, hqtext⟩ := h.whole.resolve_left hne
  obtain ⟨space, space', hparts, hspace, hspace'⟩ := trimmed_parts (blank ++ (p.text ++ blank'))
  rw [← hqtext] at hparts
  obtain ⟨rfl, rfl, rfl⟩ := placeholder_unique hparts hspace hspace'
  exact ⟨p, before, after, blank, blank', ⟨htext, hblank, hblank', hspace, hspace'⟩, rfl, hq⟩

theorem Checked.isUrlVariable {found : Attribute} (h : Checked config found key value)
    (hp : matchAll placeholder value = [p]) (hkey : key ≠ "srcset".toList) :
    isUrlVariable p.name = true := by
  have hne : matchAll placeholder value ≠ [] := by simp [hp]
  have htargets : destinationsOf key value = [value] := if_neg hkey
  obtain ⟨construct, hdestination⟩ := h.leads (Or.inr hne) value (by simp [htargets])
  unfold destination at hdestination
  rw [hp] at hdestination
  simp only [except_bind_eq_ok, refuseIf_eq_ok] at hdestination
  obtain ⟨_, -, hname⟩ := hdestination
  simpa using hname

end FerrumNexus.Email
