import FerrumNexus.Formats.Json

/-!
# What is printed is read back

`parse` undoes `stringify` on every value in which no object names a member
twice. The induction is on the value; its statement leaves the text that follows
the value open, since a value is read in front of a comma or a bracket.
-/
namespace FerrumNexus.Formats

/-! ## Strings -/

theorem skip_cons {c : Char} (h : isWhitespace c = false) (cs : List Char) :
    skip (c :: cs) = c :: cs := by
  simp [skip, h]

theorem hexValue_hexDigit : ∀ n < 16, hexValue (hexDigit n) = some n := by decide

theorem codeUnit_control {n : ℕ} (h : n < 32) :
    codeUnit '0' '0' (hexDigit (n / 16)) (hexDigit (n % 16)) = some n := by
  have hzero : hexValue '0' = some 0 := by decide
  have hhigh := hexValue_hexDigit (n / 16) (by omega)
  have hlow := hexValue_hexDigit (n % 16) (by omega)
  simp only [codeUnit, hzero, hhigh, hlow, Option.bind_eq_bind, Option.bind_some, Option.pure_def,
    Option.some.injEq]
  omega

theorem char_eq_of_toNat {c : Char} {n : ℕ} (h : c.toNat = n) : c = Char.ofNat n := by
  rw [← h, Char.ofNat_toNat]

theorem readString_quoteChar (c : Char) (rest : List Char) :
    readString (quoteChar c ++ rest) = (readString rest).map fun r => (c :: r.1, r.2) := by
  unfold quoteChar
  split
  · subst c
    rfl
  split
  · subst c
    rfl
  split
  · rename_i h
    rw [char_eq_of_toNat h]
    rfl
  split
  · rename_i h
    rw [char_eq_of_toNat h]
    rfl
  split
  · rename_i h
    rw [char_eq_of_toNat h]
    rfl
  split
  · rename_i h
    rw [char_eq_of_toNat h]
    rfl
  split
  · rename_i h
    rw [char_eq_of_toNat h]
    rfl
  split
  · rename_i h
    have hlt : c.toNat < 55296 := by omega
    simp only [List.cons_append, List.nil_append]
    rw [readString, codeUnit_control h]
    simp only [hlt, true_or, if_true, Char.ofNat_toNat]
  · rename_i hquote hslash _ _ _ _ _ hprintable
    rw [List.singleton_append, readString.eq_def]
    split <;> simp_all

theorem readString_flatMap (s rest : List Char) :
    readString (s.flatMap quoteChar ++ '"' :: rest) = some (s, rest) := by
  induction s with
  | nil => rfl
  | cons c s ih =>
    rw [List.flatMap_cons, List.append_assoc, readString_quoteChar, ih]
    rfl

theorem readString_quote (s : String) (rest : List Char) :
    ∃ body, quote s ++ rest = '"' :: body ∧ readString body = some (s.toList, rest) := by
  refine ⟨s.toList.flatMap quoteChar ++ '"' :: rest, ?_, readString_flatMap _ _⟩
  simp [quote]

/-! ## Heads -/

/-- A character a value's text may begin with. -/
def BeginsValue (c : Char) : Prop :=
  isNumberChar c = true ∨ c = 'n' ∨ c = 't' ∨ c = 'f' ∨ c = '"' ∨ c = '[' ∨ c = '\x7b'

theorem BeginsValue.ne {c d : Char} (h : BeginsValue c) (hd : isNumberChar d = false)
    (hd' : d ∉ ['n', 't', 'f', '"', '[', '\x7b']) : c ≠ d := by
  rintro rfl
  rcases h with h | h | h | h | h | h | h
  · rw [hd] at h
    cases h
  all_goals exact hd' (by simp [h])

theorem BeginsValue.printed {c : Char} (h : BeginsValue c) : isWhitespace c = false := by
  unfold isWhitespace
  have hspace := h.ne (d := ' ') (by decide) (by decide)
  have htab := h.ne (d := '\t') (by decide) (by decide)
  have hline := h.ne (d := '\n') (by decide) (by decide)
  have hreturn := h.ne (d := '\r') (by decide) (by decide)
  simp [hspace, htab, hline, hreturn]

/-- The text ends, or goes on with what cannot belong to a number. -/
def EndsNumber (rest : List Char) : Prop :=
  ∀ c ∈ rest.head?, isNumberChar c = false

theorem takeWhile_number {digits rest : List Char} (h : ∀ c ∈ digits, isNumberChar c = true)
    (hrest : EndsNumber rest) : (digits ++ rest).takeWhile isNumberChar = digits ∧
      (digits ++ rest).dropWhile isNumberChar = rest := by
  induction digits with
  | nil =>
    cases rest with
    | nil => exact ⟨rfl, rfl⟩
    | cons c rest =>
      have hc : isNumberChar c = false := hrest c rfl
      simp [hc]
  | cons c digits ih =>
    have hc : isNumberChar c = true := h c List.mem_cons_self
    obtain ⟨htake, hdrop⟩ := ih fun d hd => h d (List.mem_cons_of_mem c hd)
    simp only [List.cons_append, List.takeWhile_cons_of_pos hc, List.dropWhile_cons_of_pos hc,
      htake, hdrop, and_self]

section Values

variable {ν : Type} (format : NumberFormat ν)

theorem stringify_begins (v : Json ν) :
    ∃ c cs, stringify format v = c :: cs ∧ BeginsValue c := by
  cases v with
  | null => exact ⟨_, _, by rw [stringify], by simp [BeginsValue]⟩
  | bool b => cases b <;> exact ⟨_, _, by rw [stringify], by simp [BeginsValue]⟩
  | number n =>
    rw [stringify]
    cases htext : format.text n with
    | nil => exact absurd htext (format.text_ne_nil n)
    | cons c cs =>
      refine ⟨c, cs, rfl, .inl (format.text_chars n c ?_)⟩
      rw [htext]
      exact List.mem_cons_self
  | string s => exact ⟨_, _, by rw [stringify, quote], by simp [BeginsValue]⟩
  | array items => cases items <;> exact ⟨_, _, by rw [stringify], by simp [BeginsValue]⟩
  | object members => cases members <;> exact ⟨_, _, by rw [stringify], by simp [BeginsValue]⟩

theorem stringify_length_pos (v : Json ν) : 0 < (stringify format v).length := by
  obtain ⟨c, cs, hv, -⟩ := stringify_begins format v
  simp [hv]

/-- Numbers are what is left when no other value begins. -/
theorem readValue_number (n : ν) (fuel : ℕ) {rest : List Char} (hrest : EndsNumber rest) :
    readValue format (fuel + 1) (format.text n ++ rest) = some (.number n, rest) := by
  obtain ⟨htake, hdrop⟩ := takeWhile_number (format.text_chars n) hrest
  cases htext : format.text n with
  | nil => exact absurd htext (format.text_ne_nil n)
  | cons c cs =>
    have hc : isNumberChar c = true := by
      apply format.text_chars n
      rw [htext]
      exact List.mem_cons_self
    have hne : ∀ d, isNumberChar d = false → c ≠ d := by
      rintro d hd rfl
      rw [hd] at hc
      cases hc
    have hspace : isWhitespace c = false := BeginsValue.printed (.inl hc)
    have hn := hne 'n' (by decide)
    have ht := hne 't' (by decide)
    have hf := hne 'f' (by decide)
    have hquote := hne '"' (by decide)
    have hbracket := hne '[' (by decide)
    have hbrace := hne '\x7b' (by decide)
    rw [htext] at htake hdrop
    rw [readValue, List.cons_append, skip_cons hspace]
    have hread : format.read (c :: cs) = some n := htext ▸ format.read_text n
    rw [List.cons_append] at htake hdrop
    split <;> simp_all

/-! ## Values -/

theorem endsNumber_cons {c : Char} (h : isNumberChar c = false) (cs : List Char) :
    EndsNumber (c :: cs) := by
  rintro d hd
  cases hd
  exact h

theorem stringifyItems_ends (items : List (Json ν)) (rest : List Char) :
    EndsNumber (stringifyItems format items ++ rest) := by
  cases items <;> exact endsNumber_cons (by decide) _

theorem stringifyMembers_ends (members : List (String × Json ν)) (rest : List Char) :
    EndsNumber (stringifyMembers format members ++ rest) := by
  cases members with
  | nil => exact endsNumber_cons (by decide) _
  | cons m ms => exact endsNumber_cons (by decide) _

theorem assign_new {members : List (String × Json ν)} {name : String} (v : Json ν)
    (h : name ∉ members.map (·.1)) : assign members name v = members ++ [(name, v)] := by
  have hany : (members.any fun entry => entry.1 == name) = false := by
    rw [List.any_eq_false]
    intro entry hentry
    have hne : entry.1 ≠ name := fun he => h (he ▸ List.mem_map_of_mem hentry)
    simpa using hne
  simp [assign, hany]

mutual

/-- A printed value is read back in front of whatever ends a number. -/
theorem readValue_stringify : ∀ (v : Json ν), v.Keyed → ∀ (fuel : ℕ) (rest : List Char),
    (stringify format v).length ≤ fuel → EndsNumber rest →
    readValue format fuel (stringify format v ++ rest) = some (v, rest)
  | v, hkeyed, 0, rest, hfuel, hrest => by
    have := stringify_length_pos format v
    omega
  | .null, _, fuel + 1, rest, _, _ => by
    rw [stringify, readValue]
    rfl
  | .bool true, _, fuel + 1, rest, _, _ => by
    rw [stringify, readValue]
    rfl
  | .bool false, _, fuel + 1, rest, _, _ => by
    rw [stringify, readValue]
    rfl
  | .number n, _, fuel + 1, rest, _, hrest => by
    rw [stringify]
    exact readValue_number format n fuel hrest
  | .string s, _, fuel + 1, rest, _, _ => by
    obtain ⟨body, hbody, hread⟩ := readString_quote s rest
    rw [stringify, hbody, readValue, skip_cons (by decide)]
    simp [hread]
  | .array [], _, fuel + 1, rest, _, _ => by
    rw [stringify, readValue]
    rfl
  | .array (v :: vs), hkeyed, fuel + 1, rest, hfuel, hrest => by
    rw [Json.Keyed] at hkeyed
    rw [stringify] at hfuel ⊢
    have hlength : (stringify format v ++ stringifyItems format vs).length ≤ fuel := by
      simpa using hfuel
    have hitems := readItems_stringify (v :: vs) v vs rfl hkeyed fuel rest hlength
    obtain ⟨c, cs, hv, hbegins⟩ := stringify_begins format v
    have hne : c ≠ ']' := hbegins.ne (by decide) (by decide)
    rw [hv] at hitems ⊢
    rw [readValue, List.cons_append, skip_cons (by decide)]
    simp only [List.cons_append, List.append_assoc, skip_cons hbegins.printed] at hitems ⊢
    split
    · simp_all
    · simp_all
  | .object [], _, fuel + 1, rest, _, _ => by
    rw [stringify, readValue]
    rfl
  | .object ((name, v) :: ms), hkeyed, fuel + 1, rest, hfuel, hrest => by
    rw [Json.Keyed] at hkeyed
    rw [stringify] at hfuel ⊢
    have hlength : (quote name ++ ':' :: (stringify format v ++ stringifyMembers format ms)).length ≤
        fuel := by
      simpa using hfuel
    have hmembers := readMembers_stringify ((name, v) :: ms) name v ms rfl hkeyed.2 [] hkeyed.1
      fuel rest hlength
    rw [readValue, List.cons_append, skip_cons (by decide)]
    rw [quote, List.cons_append, List.cons_append] at hmembers ⊢
    simp only [skip_cons (c := '"') (by decide)]
    split
    · rename_i heq
      cases heq
    · rw [hmembers]
      rfl
termination_by _ _ fuel => fuel

/-- Items are read up to their closing bracket. -/
theorem readItems_stringify : ∀ (items : List (Json ν)) (v : Json ν) (vs : List (Json ν)),
    items = v :: vs → KeyedItems items → ∀ (fuel : ℕ) (rest : List Char),
    (stringify format v ++ stringifyItems format vs).length ≤ fuel →
    readItems format fuel (stringify format v ++ stringifyItems format vs ++ rest) =
      some (items, rest)
  | [], v, vs, h, _, _, _, _ => by cases h
  | w :: ws, v, vs, h, hkeyed, fuel, rest, hfuel => by
    cases h
    rw [KeyedItems] at hkeyed
    have hpos := stringify_length_pos format w
    rw [List.length_append] at hfuel
    obtain ⟨n, rfl⟩ : ∃ n, fuel = n + 1 := Nat.exists_eq_succ_of_ne_zero (by omega)
    have htail : 0 < (stringifyItems format ws).length := by
      cases ws <;> simp [stringifyItems]
    have hvalue := readValue_stringify w hkeyed.1 n (stringifyItems format ws ++ rest) (by omega)
      (stringifyItems_ends format ws rest)
    rw [readItems, List.append_assoc, hvalue]
    simp only [Option.bind_eq_bind, Option.bind_some]
    cases ws with
    | nil =>
      rw [stringifyItems, List.cons_append, skip_cons (by decide)]
      rfl
    | cons w' ws' =>
      rw [stringifyItems, List.length_cons] at hfuel
      have hitems := readItems_stringify (w' :: ws') w' ws' rfl hkeyed.2 n rest (by omega)
      rw [stringifyItems, List.cons_append, skip_cons (by decide)]
      simp only [hitems, Option.map_some]
termination_by _ _ _ _ _ fuel => fuel

/-- Members are read up to their closing brace, after those read before them. -/
theorem readMembers_stringify : ∀ (members : List (String × Json ν)) (name : String) (v : Json ν)
    (ms : List (String × Json ν)), members = (name, v) :: ms → KeyedMembers members →
    ∀ seen : List (String × Json ν), ((seen ++ members).map (·.1)).Nodup →
    ∀ (fuel : ℕ) (rest : List Char),
    (quote name ++ ':' :: (stringify format v ++ stringifyMembers format ms)).length ≤ fuel →
    readMembers format fuel seen
        (quote name ++ ':' :: (stringify format v ++ stringifyMembers format ms) ++ rest) =
      some (seen ++ members, rest)
  | [], _, _, _, h, _, _, _, _, _, _ => by cases h
  | m :: ms', name, v, ms, h, hkeyed, seen, hnodup, fuel, rest, hfuel => by
    cases h
    rw [KeyedMembers] at hkeyed
    have hpos := stringify_length_pos format v
    rw [List.length_append, List.length_cons, List.length_append] at hfuel
    obtain ⟨n, rfl⟩ : ∃ n, fuel = n + 1 := Nat.exists_eq_succ_of_ne_zero (by omega)
    have hnew : name ∉ seen.map (·.1) := by
      rw [List.map_append, List.nodup_append] at hnodup
      intro hmem
      exact hnodup.2.2 name hmem name (by simp) rfl
    obtain ⟨body, hbody, hname⟩ := readString_quote name
      (':' :: (stringify format v ++ (stringifyMembers format ms' ++ rest)))
    have hvalue := readValue_stringify v hkeyed.1 n (stringifyMembers format ms' ++ rest) (by omega)
      (stringifyMembers_ends format ms' rest)
    rw [List.append_assoc, List.cons_append, List.append_assoc, hbody, readMembers,
      skip_cons (by decide)]
    simp only [hname, Option.bind_eq_bind, Option.bind_some, skip_cons (c := ':') (by decide),
      hvalue, String.ofList_toList, assign_new v hnew]
    cases ms' with
    | nil =>
      rw [stringifyMembers, List.cons_append, skip_cons (by decide)]
      rfl
    | cons m' rest' =>
      obtain ⟨name', v'⟩ := m'
      rw [stringifyMembers, List.length_cons] at hfuel
      have hmembers := readMembers_stringify ((name', v') :: rest') name' v' rest' rfl hkeyed.2
        (seen ++ [(name, v)]) (by simpa using hnodup) n rest (by omega)
      rw [stringifyMembers, List.cons_append, skip_cons (by decide)]
      simpa only [List.append_assoc, List.singleton_append] using hmembers
termination_by _ _ _ _ _ _ _ _ fuel => fuel

end

/-- `JSON.parse(JSON.stringify(value))` is the value. -/
theorem parse_stringify {v : Json ν} (h : v.Keyed) : parse format (stringify format v) = some v := by
  have hread := readValue_stringify format v h ((stringify format v).length + 1) []
    (Nat.le_succ _) (by simp [EndsNumber])
  rw [List.append_nil] at hread
  rw [parse, hread]
  rfl

end Values

end FerrumNexus.Formats
