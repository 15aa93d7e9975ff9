import FerrumNexus.Telemetry.Prometheus
import FerrumNexus.Sequences.Scanning

/-!
# Metrics text and back

The text exposition format: a sample per line, blanks between any two tokens,
a label block with an optional comma behind its last label, and whatever
follows the value behind a blank. What the reader makes of every such line is
known exactly: it loses a label named `__proto__`, a line whose block does not
stand right behind the name, and a line that is all white space from its value
on (`Number` reads a no-break space as 0, `trimEnd` removes it first).
-/
namespace FerrumNexus.Telemetry

open Platform

/-! ## What is written -/

inductive Blank
  | space
  | tab
  deriving DecidableEq

def Blank.char : Blank → Char
  | .space => ' '
  | .tab => '\t'

def blanks (gap : List Blank) : List Char := gap.map Blank.char

/-- A metric or label name. -/
structure Name where
  first : Char
  rest : List Char
  isStart : isNameStart first = true
  isName : ∀ c ∈ rest, isNameChar c = true

def Name.text (name : Name) : List Char := name.first :: name.rest

/-- A value the reader accepts: a token, so nothing a blank or a line break would cut. -/
structure Token where
  text : List Char
  value : MetricValue
  uncut : ∀ c ∈ text, isBlank c = false ∧ c ≠ '\n'
  accepted : parseValue text = some value

/-- A label and the blanks around its tokens; the last ones stand behind a comma. -/
structure Label where
  name : Name
  value : List Char
  beforeEquals : List Blank
  afterEquals : List Blank
  afterValue : List Blank
  afterComma : List Blank

/-- A label block and the blanks before it and in it. `comma` is there for a comma behind the
last label. -/
structure Block where
  gap : List Blank
  lead : List Blank
  labels : List Label
  comma : Option (List Blank)
  distinct : (labels.map fun label => label.name.text).Nodup

/-- A sample on a line of its own. What follows the value begins with a blank. -/
structure SampleLine where
  indent : List Blank
  name : Name
  block : Option Block
  gap : List Blank
  value : Token
  tail : Option (Blank × List Char)
  separated : block = none → gap ≠ []
  oneLine : ∀ after ∈ tail, '\n' ∉ after.2

inductive Line
  | sample (line : SampleLine)
  | comment (indent : List Blank) (text : List Char) (oneLine : '\n' ∉ text)
  | empty (indent : List Blank)

/-- A label value as it stands between its quotes. -/
def escape : List Char → List Char
  | [] => []
  | c :: rest =>
    if c = '\\' then '\\' :: '\\' :: escape rest
    else if c = '"' then '\\' :: '"' :: escape rest
    else if c = '\n' then '\\' :: 'n' :: escape rest
    else c :: escape rest

def Label.text (label : Label) : List Char :=
  label.name.text ++ blanks label.beforeEquals ++ '=' :: (blanks label.afterEquals ++
    '"' :: (escape label.value ++ '"' :: blanks label.afterValue))

def labelsText : List Label → Option (List Blank) → List Char
  | [], _ => []
  | [label], none => label.text
  | [label], some gap => label.text ++ ',' :: blanks gap
  | label :: next :: labels, comma =>
    label.text ++ ',' :: (blanks label.afterComma ++ labelsText (next :: labels) comma)

def Block.text (block : Block) : List Char :=
  blanks block.gap ++ '{' :: (blanks block.lead ++ labelsText block.labels block.comma ++ ['}'])

def SampleLine.blockText (line : SampleLine) : List Char :=
  match line.block with
  | none => []
  | some block => block.text

def SampleLine.tailText (line : SampleLine) : List Char :=
  match line.tail with
  | none => []
  | some (blank, after) => blank.char :: after

def SampleLine.text (line : SampleLine) : List Char :=
  blanks line.indent ++ (line.name.text ++ (line.blockText ++ (blanks line.gap ++
    (line.value.text ++ line.tailText))))

def Line.text : Line → List Char
  | .sample line => line.text
  | .comment indent text _ => blanks indent ++ '#' :: text
  | .empty indent => blanks indent

/-- The labels of a line. -/
def SampleLine.labels (line : SampleLine) : List Label :=
  match line.block with
  | none => []
  | some block => block.labels

def Label.pair (label : Label) : List Char × List Char := (label.name.text, label.value)

theorem SampleLine.distinct (line : SampleLine) :
    ((line.labels.map Label.pair).map Prod.fst).Nodup := by
  rw [List.map_map]
  unfold SampleLine.labels
  split
  · exact List.nodup_nil
  · rename_i block _
    exact block.distinct

/-- The sample a line stands for. -/
def SampleLine.sample (line : SampleLine) : PrometheusSample where
  name := line.name.text
  labels := ⟨line.labels.map Label.pair, line.distinct⟩
  value := line.value.value

def Line.sample? : Line → Option PrometheusSample
  | .sample line => some line.sample
  | .comment _ _ _ => none
  | .empty _ => none

/-- The lines, one below the other. -/
def exposition (lines : List Line) : List Char := ['\n'].intercalate (lines.map Line.text)

/-! ## Blanks and names -/

theorem isBlank_char (blank : Blank) : isBlank blank.char = true := by
  cases blank <;> rfl

theorem isWhiteSpace_char (blank : Blank) : isWhiteSpace blank.char = true := by
  cases blank <;> rfl

/-- What does not begin with a blank. -/
def Starts (rest : List Char) : Prop := ∀ c ∈ rest.head?, isBlank c = false

theorem Starts.cons {c : Char} (h : isBlank c = false) (rest : List Char) : Starts (c :: rest) := by
  simp [Starts, h]

theorem skipSpace_of_starts {rest : List Char} (h : Starts rest) : skipSpace rest = rest := by
  cases rest with
  | nil => rfl
  | cons c rest =>
    have hc : isBlank c = false := h c rfl
    rw [skipSpace, List.dropWhile_cons_of_neg (by simp [hc])]

theorem skipSpace_blanks (gap : List Blank) {rest : List Char} (h : Starts rest) :
    skipSpace (blanks gap ++ rest) = rest := by
  induction gap with
  | nil => exact skipSpace_of_starts h
  | cons blank gap ih =>
    rw [blanks, List.map_cons, List.cons_append, skipSpace,
      List.dropWhile_cons_of_pos (isBlank_char blank)]
    exact ih

theorem skipSpace_to (gap : List Blank) {c : Char} (h : isBlank c = false) (rest : List Char) :
    skipSpace (blanks gap ++ c :: rest) = c :: rest :=
  skipSpace_blanks gap (Starts.cons h rest)

/-- What no name goes on with. -/
def EndsName (rest : List Char) : Prop := ∀ c ∈ rest.head?, isNameChar c = false

theorem readName_text (name : Name) {rest : List Char} (h : EndsName rest) :
    readName (name.text ++ rest) = some (name.text, rest) := by
  have hall : ∀ c ∈ name.rest, isNameChar c = true := name.isName
  have htake : (name.rest ++ rest).takeWhile isNameChar = name.rest := by
    rw [List.takeWhile_append_of_pos hall]
    cases rest with
    | nil => simp
    | cons c rest =>
      have hc : isNameChar c = false := h c rfl
      simp [hc]
  have hdrop : (name.rest ++ rest).dropWhile isNameChar = rest := by
    rw [List.dropWhile_append_of_pos hall]
    cases rest with
    | nil => rfl
    | cons c rest =>
      have hc : isNameChar c = false := h c rfl
      simp [hc]
  rw [Name.text, List.cons_append, readName, if_pos name.isStart, htake, hdrop]

theorem EndsName.blanks_append (gap : List Blank) {rest : List Char} (h : EndsName rest) :
    EndsName (blanks gap ++ rest) := by
  cases gap with
  | nil => exact h
  | cons blank gap =>
    intro c hc
    obtain rfl : blank.char = c := by simpa [blanks] using hc
    cases blank <;> rfl

theorem EndsName.cons {c : Char} (h : isNameChar c = false) (rest : List Char) :
    EndsName (c :: rest) := by
  simp [EndsName, h]

/-! ## Labels -/

theorem readQuotedBody_escape (value rest : List Char) :
    readQuotedBody (escape value ++ '"' :: rest) = some (value, rest) := by
  induction value with
  | nil => simp [escape, readQuotedBody]
  | cons c value ih =>
    rw [escape]
    by_cases hslash : c = '\\'
    · subst hslash
      simp [readQuotedBody, ih]
    · by_cases hquote : c = '"'
      · subst hquote
        simp [readQuotedBody, ih]
      · by_cases hline : c = '\n'
        · subst hline
          simp [readQuotedBody, ih]
        · simp [hslash, hquote, hline, readQuotedBody, ih]

theorem readLabel_text (label : Label) {rest : List Char} (h : Starts rest) :
    readLabel (label.text ++ rest) = some (label.pair, rest) := by
  have hends (tail : List Char) : EndsName (blanks label.beforeEquals ++ '=' :: tail) :=
    (EndsName.cons (by decide) tail).blanks_append label.beforeEquals
  have hequals (tail : List Char) :
      skipSpace (blanks label.beforeEquals ++ '=' :: tail) = '=' :: tail := skipSpace_to _ rfl tail
  have hquote (tail : List Char) :
      skipSpace (blanks label.afterEquals ++ '"' :: tail) = '"' :: tail := skipSpace_to _ rfl tail
  simp only [Label.text, List.append_assoc, List.cons_append]
  rw [readLabel, readName_text label.name (hends _)]
  simp only [hequals, hquote, readQuoted, readQuotedBody_escape, Option.map_some,
    skipSpace_blanks label.afterValue h, Label.pair]

theorem Name.first_ne (name : Name) {c : Char} (h : isNameStart c = false) : name.first ≠ c := by
  intro heq
  have hstart := name.isStart
  rw [heq, h] at hstart
  exact Bool.false_ne_true hstart

theorem Name.first_not_blank (name : Name) : isBlank name.first = false := by
  simp [isBlank, name.first_ne (show isNameStart ' ' = false from rfl),
    name.first_ne (show isNameStart '\t' = false from rfl)]

theorem labelsText_cons (label : Label) (written : List Label) (comma : Option (List Blank))
    (rest : List Char) : ∃ tail, labelsText (label :: written) comma ++ rest =
      label.name.first :: tail := by
  cases written with
  | nil => cases comma <;> exact ⟨_, rfl⟩
  | cons next written => exact ⟨_, rfl⟩

theorem labelsText_length (label : Label) (written : List Label) (comma : Option (List Blank)) :
    written.length < (labelsText (label :: written) comma).length := by
  induction written generalizing label with
  | nil => cases comma <;> simp [labelsText, Label.text, Name.text]
  | cons next written ih =>
    have := ih next
    simp only [labelsText, List.length_append, List.length_cons] at this ⊢
    omega

/-- The labels of a block, assigned in turn. -/
def assignAll (labels : Labels) (written : List Label) : Labels :=
  written.foldl (fun labels label => assign labels label.pair.1 label.pair.2) labels

theorem readLabelsLoop_text (labels : Labels) (label : Label) (written : List Label)
    (comma : Option (List Blank)) {turns : ℕ} (hturns : written.length < turns) (rest : List Char) :
    readLabelsLoop turns labels (labelsText (label :: written) comma ++ '}' :: rest) =
      some (assignAll labels (label :: written), rest) := by
  induction written generalizing labels label turns with
  | nil =>
    obtain ⟨turns, rfl⟩ : ∃ n, turns = n + 1 := ⟨turns - 1, by omega⟩
    cases comma with
    | none =>
      rw [labelsText, readLabelsLoop, readLabel_text label (Starts.cons (by decide) _)]
      rfl
    | some gap =>
      rw [labelsText, List.append_assoc, List.cons_append, readLabelsLoop,
        readLabel_text label (Starts.cons (by decide) _)]
      simp only [skipSpace_blanks gap (Starts.cons (show isBlank '}' = false by decide) rest)]
      rfl
  | cons next written ih =>
    obtain ⟨turns, rfl⟩ : ∃ n, turns = n + 1 := ⟨turns - 1, by omega⟩
    rw [List.length_cons] at hturns
    have hnext := @ih (assign labels label.pair.1 label.pair.2) next turns (by omega)
    obtain ⟨tail, hcons⟩ := labelsText_cons next written comma ('}' :: rest)
    have hskip : skipSpace (blanks label.afterComma ++ next.name.first :: tail) =
        next.name.first :: tail := skipSpace_to _ next.name.first_not_blank tail
    rw [labelsText, List.append_assoc, List.cons_append, List.append_assoc, readLabelsLoop,
      readLabel_text label (Starts.cons (by decide) _), hcons]
    simp only [hskip]
    split
    · rename_i after hclose
      exact absurd (List.cons.inj hclose).1 (next.name.first_ne rfl)
    · rw [← hcons]
      exact hnext

theorem readLabels_text (block : Block) (rest : List Char) :
    readLabels ('{' :: (blanks block.lead ++ labelsText block.labels block.comma ++ '}' :: rest)) =
      some (assignAll .empty block.labels, rest) := by
  rw [readLabels]
  cases hlabels : block.labels with
  | nil =>
    have hskip : skipSpace (blanks block.lead ++ '}' :: rest) = '}' :: rest :=
      skipSpace_to _ rfl rest
    rw [labelsText, List.append_nil, hskip]
    rfl
  | cons label written =>
    obtain ⟨tail, hcons⟩ := labelsText_cons label written block.comma ('}' :: rest)
    have hskip : skipSpace (blanks block.lead ++ label.name.first :: tail) =
        label.name.first :: tail := skipSpace_to _ label.name.first_not_blank tail
    have hturns : written.length <
        (labelsText (label :: written) block.comma ++ '}' :: rest).length := by
      have := labelsText_length label written block.comma
      rw [List.length_append]
      omega
    have hloop := readLabelsLoop_text .empty label written block.comma hturns rest
    rw [List.append_assoc, hcons, hskip]
    rw [hcons] at hloop
    split
    · rename_i after hclose
      exact absurd (List.cons.inj hclose).1 (label.name.first_ne rfl)
    · exact hloop

/-! ## The record -/

theorem assignAll_entries (written : List Label)
    (h : (written.map fun label => label.name.text).Nodup) :
    (assignAll .empty written).entries =
      (written.map Label.pair).filter fun pair => pair.1 ≠ protoName := by
  induction written using List.reverseRecOn with
  | nil => rfl
  | append_singleton written label ih =>
    rw [List.map_append, List.nodup_append] at h
    obtain ⟨hwritten, -, hnew⟩ := h
    have hentries := ih hwritten
    rw [assignAll, List.foldl_append, List.foldl_cons, List.foldl_nil, ← assignAll, assign,
      List.map_append, List.filter_append]
    by_cases hproto : label.pair.1 = protoName
    · rw [if_pos hproto, hentries]
      simp [hproto]
    · have hfresh : label.pair.1 ∉ (assignAll .empty written).entries.map Prod.fst := by
        rw [hentries]
        intro hmem
        obtain ⟨pair, hpair, hfst⟩ := List.mem_map.mp hmem
        obtain ⟨other, hother, rfl⟩ := List.mem_map.mp (List.mem_of_mem_filter hpair)
        exact hnew _ (List.mem_map_of_mem hother) label.name.text (by simp) hfst
      rw [if_neg hproto, Sequences.OrderedMap.set_of_new hfresh, hentries]
      simp [hproto]

/-! ## Lines -/

/-- Only what follows the last character that is no white space is trimmed. -/
theorem trim_append (before : List Char) {last : Char} (h : isWhiteSpace last = false)
    (tail : List Char) : (before ++ last :: tail).rdropWhile isWhiteSpace =
      before ++ last :: tail.rdropWhile isWhiteSpace := by
  have hkept : (last :: tail).rdropWhile isWhiteSpace = last :: tail.rdropWhile isWhiteSpace := by
    rw [Sequences.rdropWhile_cons, if_neg (by simp [h])]
  rw [Sequences.rdropWhile_append (by rw [hkept]; exact List.cons_ne_nil _ _), hkept]

theorem Token.ne_nil (token : Token) : token.text ≠ [] := by
  intro hnil
  have haccepted := token.accepted
  rw [hnil] at haccepted
  exact absurd haccepted (by simp [parseValue])

/-- A number is read past the white space behind it. -/
theorem number_rdropWhile (text : List Char) :
    number (text.rdropWhile isWhiteSpace) = number text := by
  rw [number, number, Sequences.dropWhile_rdropWhile, List.rdropWhile_idempotent]

/-- A value without the white space behind it, where that leaves something. -/
theorem Token.accepted_rdropWhile (token : Token) (h : token.text.rdropWhile isWhiteSpace ≠ []) :
    parseValue (token.text.rdropWhile isWhiteSpace) = some token.value := by
  by_cases hself : token.text.rdropWhile isWhiteSpace = token.text
  · rw [hself, token.accepted]
  · have haccepted := token.accepted
    have hword (word : String) (hlast : word.toList.rdropWhile isWhiteSpace = word.toList) :
        token.text ≠ word.toList := fun heq => hself (by rw [heq, hlast])
    rw [parseValue, if_neg token.ne_nil, if_neg (not_or.mpr ⟨hword "+Inf" rfl, hword "Inf" rfl⟩),
      if_neg (hword "-Inf" rfl), if_neg (hword "NaN" rfl), ← number_rdropWhile] at haccepted
    -- what is left is none of the words either: `Number` knows none of them
    have hnumber (word : String) (hnone : number word.toList = none) :
        token.text.rdropWhile isWhiteSpace ≠ word.toList := by
      intro heq
      rw [heq, hnone] at haccepted
      exact absurd haccepted (by simp)
    rw [parseValue, if_neg h, if_neg (not_or.mpr ⟨hnumber "+Inf" (by decide),
      hnumber "Inf" (by decide)⟩), if_neg (hnumber "-Inf" (by decide)),
      if_neg (hnumber "NaN" (by decide)), haccepted]

/-- A line from its value on. -/
def SampleLine.ending (line : SampleLine) : List Char := line.value.text ++ line.tailText

/-- Something of a line stands from its value on that is no white space. -/
def SampleLine.Visible (line : SampleLine) : Prop := ∃ c ∈ line.ending, isWhiteSpace c = false

example : parseValue ['\u00a0'] = some (.decimal false 0 0) := by decide

theorem SampleLine.visible_iff (line : SampleLine) :
    line.Visible ↔ line.ending.rdropWhile isWhiteSpace ≠ [] := by
  simp [SampleLine.Visible, List.rdropWhile_eq_nil_iff]

/-- A line from behind its block on, once it is trimmed. -/
def SampleLine.rest (line : SampleLine) : List Char :=
  (blanks line.gap ++ line.ending).rdropWhile isWhiteSpace

theorem SampleLine.rest_of_visible (line : SampleLine) (h : line.Visible) :
    line.rest = blanks line.gap ++ line.ending.rdropWhile isWhiteSpace :=
  Sequences.rdropWhile_append (line.visible_iff.mp h)

theorem SampleLine.rest_of_not_visible (line : SampleLine) (h : ¬ line.Visible) :
    line.rest = [] := by
  have hending : ∀ c ∈ line.ending, isWhiteSpace c = true := by
    simpa [SampleLine.Visible] using h
  rw [SampleLine.rest, List.rdropWhile_eq_nil_iff]
  intro c hc
  rcases List.mem_append.mp hc with hgap | hmem
  · obtain ⟨blank, -, rfl⟩ := List.mem_map.mp hgap
    exact isWhiteSpace_char blank
  · exact hending c hmem

/-- What follows a value begins with a blank, trimmed or not. -/
theorem SampleLine.tail_blank (line : SampleLine) :
    ∀ c ∈ (line.tailText.rdropWhile isWhiteSpace).head?, isBlank c = true := by
  intro c hc
  have hhead : c ∈ line.tailText.head? := Sequences.head?_of_rdropWhile hc
  unfold SampleLine.tailText at hhead
  split at hhead
  · simp at hhead
  · rename_i blank after htail
    obtain rfl : blank.char = c := by simpa using hhead
    exact isBlank_char blank

/-- The value of a visible line, up to its next blank: trimmed where nothing visible follows. -/
theorem SampleLine.value_token (line : SampleLine) (h : line.Visible) :
    parseValue ((line.ending.rdropWhile isWhiteSpace).takeWhile fun c => !isBlank c) =
      some line.value.value := by
  have huncut : ∀ c ∈ line.value.text, (!isBlank c) = true := by
    intro c hc
    simp [line.value.uncut c hc]
  by_cases htail : line.tailText.rdropWhile isWhiteSpace = []
  · have hending : line.ending.rdropWhile isWhiteSpace =
        line.value.text.rdropWhile isWhiteSpace := Sequences.rdropWhile_append_of_nil htail
    have hne := line.visible_iff.mp h
    rw [hending] at hne ⊢
    have hkept : ∀ c ∈ line.value.text.rdropWhile isWhiteSpace, (!isBlank c) = true :=
      fun c hc => huncut c ((List.rdropWhile_prefix _ _).subset hc)
    rw [List.takeWhile_eq_self_iff.mpr hkept, line.value.accepted_rdropWhile hne]
  · have hending : line.ending.rdropWhile isWhiteSpace =
        line.value.text ++ line.tailText.rdropWhile isWhiteSpace := Sequences.rdropWhile_append htail
    obtain ⟨c, rest, hrest⟩ := List.exists_cons_of_ne_nil htail
    have hc : isBlank c = true := line.tail_blank c (by rw [hrest]; rfl)
    rw [hending, List.takeWhile_append_of_pos huncut, hrest,
      List.takeWhile_cons_of_neg (by simp [hc]), List.append_nil, line.value.accepted]

theorem SampleLine.ending_starts (line : SampleLine) :
    Starts (line.ending.rdropWhile isWhiteSpace) := by
  obtain ⟨first, text, htext⟩ := List.exists_cons_of_ne_nil line.value.ne_nil
  intro c hc
  have hhead : c ∈ line.ending.head? := Sequences.head?_of_rdropWhile hc
  obtain rfl : first = c := by simpa [SampleLine.ending, htext] using hhead
  exact (line.value.uncut first (by simp [htext])).1

theorem isWhiteSpace_of_isNameChar {c : Char} (h : isNameChar c = true) : isWhiteSpace c = false := by
  simp only [isNameChar, Bool.or_eq_true, decide_eq_true_eq] at h
  rcases h with (hletter | rfl) | rfl
  · exact isWhiteSpace_of_isAlphanum hletter
  · rfl
  · rfl

theorem Name.isNameChar_of_mem (name : Name) : ∀ c ∈ name.text, isNameChar c = true := by
  intro c hc
  rcases List.mem_cons.mp hc with rfl | hrest
  · have hstart := name.isStart
    simp only [isNameStart, Bool.or_eq_true, decide_eq_true_eq] at hstart
    simp only [isNameChar, Char.isAlphanum, Bool.or_eq_true, decide_eq_true_eq]
    tauto
  · exact name.isName c hrest

/-- A name and the block behind it end in a character that is no white space. -/
theorem SampleLine.heading_last (line : SampleLine) : ∃ before last,
    line.name.text ++ line.blockText = before ++ [last] ∧ isWhiteSpace last = false := by
  unfold SampleLine.blockText
  cases line.block with
  | none =>
    have hne : line.name.text ≠ [] := List.cons_ne_nil _ _
    refine ⟨line.name.text.dropLast, line.name.text.getLast hne, ?_, ?_⟩
    · rw [List.append_nil, List.dropLast_append_getLast]
    · exact isWhiteSpace_of_isNameChar (line.name.isNameChar_of_mem _ (List.getLast_mem hne))
  | some block =>
    refine ⟨line.name.text ++ (blanks block.gap ++ '{' :: (blanks block.lead ++
      labelsText block.labels block.comma)), '}', ?_, rfl⟩
    simp [Block.text]

/-- A line that is trimmed, from its name on. -/
theorem SampleLine.skipSpace_text (line : SampleLine) :
    skipSpace (line.text.rdropWhile isWhiteSpace) =
      line.name.text ++ (line.blockText ++ line.rest) := by
  obtain ⟨before, last, hheading, hlast⟩ := line.heading_last
  have htext : line.text = blanks line.indent ++ (before ++ last ::
      (blanks line.gap ++ line.ending)) := by
    have hassoc : line.text = blanks line.indent ++ ((line.name.text ++ line.blockText) ++
        (blanks line.gap ++ line.ending)) := by
      simp [SampleLine.text, SampleLine.ending]
    rw [hassoc, hheading]
    simp
  have hkept : before ++ last :: line.rest = line.name.text ++ (line.blockText ++ line.rest) := by
    rw [← List.append_assoc, hheading]
    simp
  rw [htext, ← List.append_assoc, trim_append _ hlast, List.append_assoc, ← SampleLine.rest, hkept]
  exact skipSpace_to _ line.name.first_not_blank _

/-- The block of a line stands right behind the name. -/
def SampleLine.Tight (line : SampleLine) : Prop := ∀ block ∈ line.block, block.gap = []

theorem parseLine_text (line : SampleLine) :
    parseLine line.text = readSample (line.name.text ++ (line.blockText ++ line.rest)) := by
  have hcomment : line.name.first ≠ '#' := line.name.first_ne rfl
  rw [parseLine, line.skipSpace_text]
  apply if_neg
  simp [Name.text, hcomment]

theorem readValue_visible (line : SampleLine) (h : line.Visible) (name : List Char)
    (labels : Labels) : readValue name labels line.rest = some ⟨name, labels, line.value.value⟩ := by
  rw [line.rest_of_visible h, readValue, skipSpace_blanks _ line.ending_starts]
  simp only [if_neg (line.visible_iff.mp h), line.value_token h, Option.map_some]

theorem readValue_not_visible (line : SampleLine) (h : ¬ line.Visible) (name : List Char)
    (labels : Labels) : readValue name labels line.rest = none := by
  rw [line.rest_of_not_visible h]
  rfl

theorem unsignedLiteral_brace (rest : List Char) : unsignedLiteral ('{' :: rest) = none := by
  have hinfinity : '{' :: rest ≠ "Infinity".toList := by
    intro heq
    have hhead : some '{' = some 'I' := congrArg List.head? heq
    exact absurd hhead (by decide)
  have hdigit : Char.isDigit '{' = false := rfl
  have htake : ('{' :: rest).takeWhile Char.isDigit = [] := by
    rw [List.takeWhile_cons_of_neg (by simp [hdigit])]
  have hdrop : ('{' :: rest).dropWhile Char.isDigit = '{' :: rest := by
    rw [List.dropWhile_cons_of_neg (by simp [hdigit])]
  rw [unsignedLiteral, if_neg hinfinity]
  simp only [htake, hdrop]
  rfl

/-- No number begins with a brace. -/
theorem parseValue_brace (rest : List Char) : parseValue ('{' :: rest) = none := by
  have hstart : ('{' :: rest).dropWhile isWhiteSpace = '{' :: rest := by
    rw [List.dropWhile_cons_of_neg (by decide)]
  have htrim : ('{' :: rest).rdropWhile isWhiteSpace = '{' :: rest.rdropWhile isWhiteSpace :=
    trim_append [] rfl rest
  have hword (word : String) (h : word.toList.head? ≠ some '{') : '{' :: rest ≠ word.toList := by
    intro heq
    rw [← heq] at h
    exact h rfl
  rw [parseValue, if_neg (List.cons_ne_nil _ _),
    if_neg (not_or.mpr ⟨hword "+Inf" (by decide), hword "Inf" (by decide)⟩),
    if_neg (hword "-Inf" (by decide)), if_neg (hword "NaN" (by decide)), number, hstart, htrim]
  exact unsignedLiteral_brace _

/-- A line whose block does not stand right behind its name is not read. -/
theorem parseLine_loose (line : SampleLine) {block : Block} (hblock : line.block = some block)
    (hgap : block.gap ≠ []) : parseLine line.text = none := by
  obtain ⟨blank, gap, hblanks⟩ := List.exists_cons_of_ne_nil hgap
  obtain ⟨rest, htext⟩ : ∃ rest, line.blockText ++ line.rest = blanks block.gap ++ '{' :: rest := by
    refine ⟨blanks block.lead ++ (labelsText block.labels block.comma ++ '}' :: line.rest), ?_⟩
    rw [SampleLine.blockText, hblock]
    simp [Block.text]
  have hends : EndsName (blanks block.gap ++ '{' :: rest) :=
    (EndsName.cons (by decide) rest).blanks_append block.gap
  have hbrace : (blanks block.gap ++ '{' :: rest).head? ≠ some '{' := by
    rw [hblanks]
    cases blank <;> simp [blanks, Blank.char]
  have hskip : skipSpace (blanks block.gap ++ '{' :: rest) = '{' :: rest := skipSpace_to _ rfl rest
  have htoken : ('{' :: rest).takeWhile (fun c => !isBlank c) =
      '{' :: rest.takeWhile (fun c => !isBlank c) := List.takeWhile_cons_of_pos rfl
  rw [parseLine_text, htext, readSample, readName_text line.name hends]
  simp only [readBlock, if_neg hbrace, readValue, hskip, htoken, parseValue_brace, Option.map_none,
    ite_self]

/-- What the reader makes of any other line: all of its labels but one named `__proto__`, and what
it reads as the value. -/
theorem parseLine_tight (line : SampleLine) (h : line.Tight) :
    parseLine line.text = readValue line.name.text (assignAll .empty line.labels) line.rest := by
  rw [parseLine_text]
  cases hblock : line.block with
  | none =>
    have hlabels : line.labels = [] := by rw [SampleLine.labels, hblock]
    have htext : line.blockText = [] := by rw [SampleLine.blockText, hblock]
    obtain ⟨blank, gap, hgap⟩ := List.exists_cons_of_ne_nil (line.separated hblock)
    have hhead : ∀ c ∈ line.rest.head?, blank.char = c := by
      intro c hc
      simpa [hgap, blanks] using Sequences.head?_of_rdropWhile hc
    have hends : EndsName line.rest := by
      intro c hc
      rw [← hhead c hc]
      cases blank <;> rfl
    have hbrace : line.rest.head? ≠ some '{' := by
      intro hbrace
      have hchar := hhead _ hbrace
      cases blank <;> exact absurd hchar (by decide)
    rw [htext, List.nil_append, readSample, readName_text line.name hends, hlabels]
    simp only [readBlock, if_neg hbrace]
    rfl
  | some block =>
    have hlabels : line.labels = block.labels := by rw [SampleLine.labels, hblock]
    have hgap : block.gap = [] := h block hblock
    have htext : line.blockText =
        '{' :: (blanks block.lead ++ labelsText block.labels block.comma ++ ['}']) := by
      rw [SampleLine.blockText, hblock]
      simp [Block.text, hgap, blanks]
    have hbehind (rest : List Char) : line.blockText ++ rest =
        '{' :: (blanks block.lead ++ labelsText block.labels block.comma ++ '}' :: rest) := by
      rw [htext]
      simp
    have hends (rest : List Char) : EndsName ('{' :: rest) := EndsName.cons (by decide) rest
    rw [hbehind, readSample, readName_text line.name (hends _), hlabels]
    simp only [readBlock, List.head?_cons, if_true, readLabels_text]

/-! ## One line of text each -/

theorem newline_not_mem_blanks (gap : List Blank) : '\n' ∉ blanks gap := by
  intro hmem
  obtain ⟨blank, -, hchar⟩ := List.mem_map.mp hmem
  cases blank <;> exact absurd hchar (by decide)

theorem Name.newline_not_mem (name : Name) : '\n' ∉ name.text := by
  intro hmem
  exact absurd (name.isNameChar_of_mem _ hmem) (by decide)

theorem newline_not_mem_escape (value : List Char) : '\n' ∉ escape value := by
  induction value with
  | nil => exact List.not_mem_nil
  | cons c value ih =>
    rw [escape]
    by_cases hslash : c = '\\'
    · simp [hslash, ih]
    · by_cases hquote : c = '"'
      · simp [hquote, ih]
      · by_cases hline : c = '\n'
        · simp [hline, ih]
        · simp [hslash, hquote, hline, ih, Ne.symm hline]

theorem Label.newline_not_mem (label : Label) : '\n' ∉ label.text := by
  simp [Label.text, label.name.newline_not_mem, newline_not_mem_blanks, newline_not_mem_escape]

theorem newline_not_mem_labelsText (labels : List Label) (comma : Option (List Blank)) :
    '\n' ∉ labelsText labels comma := by
  induction labels with
  | nil => exact List.not_mem_nil
  | cons label labels ih =>
    cases labels with
    | nil => cases comma <;> simp [labelsText, label.newline_not_mem, newline_not_mem_blanks]
    | cons next labels =>
      simp [labelsText, label.newline_not_mem, newline_not_mem_blanks, ih]

theorem SampleLine.newline_not_mem (line : SampleLine) : '\n' ∉ line.text := by
  have hblock : '\n' ∉ line.blockText := by
    unfold SampleLine.blockText
    cases line.block with
    | none => exact List.not_mem_nil
    | some block => simp [Block.text, newline_not_mem_blanks, newline_not_mem_labelsText]
  have hvalue : '\n' ∉ line.value.text := fun hmem => (line.value.uncut _ hmem).2 rfl
  have htail : '\n' ∉ line.tailText := by
    unfold SampleLine.tailText
    cases htail : line.tail with
    | none => exact List.not_mem_nil
    | some after =>
      obtain ⟨blank, after⟩ := after
      have hafter : '\n' ∉ after := line.oneLine _ htail
      cases blank <;> simp [Blank.char, hafter]
  simp [SampleLine.text, newline_not_mem_blanks, line.name.newline_not_mem, hblock, hvalue, htail]

theorem Line.newline_not_mem (line : Line) : '\n' ∉ line.text := by
  cases line with
  | sample line => exact line.newline_not_mem
  | comment indent text oneLine => simp [Line.text, newline_not_mem_blanks, oneLine]
  | empty indent => exact newline_not_mem_blanks indent

theorem parseLine_comment (indent : List Blank) (text : List Char) :
    parseLine (blanks indent ++ '#' :: text) = none := by
  have htrim : (blanks indent ++ '#' :: text).rdropWhile isWhiteSpace =
      blanks indent ++ '#' :: text.rdropWhile isWhiteSpace :=
    trim_append (blanks indent) rfl text
  have hskip : skipSpace (blanks indent ++ '#' :: text.rdropWhile isWhiteSpace) =
      '#' :: text.rdropWhile isWhiteSpace := skipSpace_to _ rfl _
  rw [parseLine, htrim, hskip]
  exact if_pos (Or.inr rfl)

theorem parseLine_empty (indent : List Blank) : parseLine (blanks indent) = none := by
  have htrim : (blanks indent).rdropWhile isWhiteSpace = [] := by
    rw [List.rdropWhile_eq_nil_iff]
    intro c hc
    obtain ⟨blank, -, rfl⟩ := List.mem_map.mp hc
    exact isWhiteSpace_char blank
  rw [parseLine, htrim]
  exact if_pos (Or.inl rfl)

/-! ## The whole text -/

/-- A body is read line by line. -/
theorem parsePrometheusText_lines {lines : List (List Char)} (h : ∀ line ∈ lines, '\n' ∉ line) :
    parsePrometheusText (['\n'].intercalate lines) = lines.filterMap parseLine := by
  by_cases hnil : lines = []
  · subst hnil
    rfl
  · rw [parsePrometheusText, List.splitOn_intercalate '\n' h hnil]

/-- A line the reader gives back as it is: its block stands right behind its name, none of its
labels is named `__proto__`, and it is not all white space from its value on. -/
def Line.Readable : Line → Prop
  | .sample line =>
    line.Tight ∧ (∀ label ∈ line.labels, label.name.text ≠ protoName) ∧ line.Visible
  | .comment _ _ _ => True
  | .empty _ => True

theorem SampleLine.assignAll_eq_iff (line : SampleLine) :
    assignAll .empty line.labels = ⟨line.labels.map Label.pair, line.distinct⟩ ↔
      ∀ label ∈ line.labels, label.name.text ≠ protoName := by
  have hdistinct : (line.labels.map fun label => label.name.text).Nodup := by
    have hpairs := line.distinct
    rwa [List.map_map] at hpairs
  have hentries := assignAll_entries line.labels hdistinct
  constructor
  · intro heq label hlabel
    rw [heq, eq_comm, List.filter_eq_self] at hentries
    exact of_decide_eq_true (hentries label.pair (List.mem_map_of_mem hlabel))
  · intro hall
    have hself : (line.labels.map Label.pair).filter (fun pair => pair.1 ≠ protoName) =
        line.labels.map Label.pair := by
      rw [List.filter_eq_self]
      intro pair hpair
      obtain ⟨label, hlabel, rfl⟩ := List.mem_map.mp hpair
      exact decide_eq_true (hall label hlabel)
    rw [hself] at hentries
    cases hassigned : assignAll .empty line.labels with
    | mk entries distinct =>
      rw [hassigned] at hentries
      subst hentries
      rfl

theorem SampleLine.parseLine_eq_iff (line : SampleLine) :
    parseLine line.text = some line.sample ↔ line.Tight ∧
      (∀ label ∈ line.labels, label.name.text ≠ protoName) ∧ line.Visible := by
  by_cases htight : line.Tight
  · rw [parseLine_tight line htight]
    by_cases hvisible : line.Visible
    · rw [readValue_visible line hvisible, Option.some_inj, SampleLine.sample,
        PrometheusSample.mk.injEq, line.assignAll_eq_iff]
      simp [htight, hvisible]
    · rw [readValue_not_visible line hvisible]
      simp [hvisible]
  · have hloose : ∃ block, line.block = some block ∧ block.gap ≠ [] := by
      simpa [SampleLine.Tight] using htight
    obtain ⟨block, hblock, hgap⟩ := hloose
    rw [parseLine_loose line hblock hgap]
    simp [htight]

theorem Line.parseLine_eq_iff (line : Line) : parseLine line.text = line.sample? ↔ line.Readable := by
  cases line with
  | sample line => exact line.parseLine_eq_iff
  | comment indent text oneLine =>
    simp [Line.text, Line.sample?, Line.Readable, parseLine_comment]
  | empty indent => simp [Line.text, Line.sample?, Line.Readable, parseLine_empty]

/-- No line is read that stands for no sample. -/
theorem Line.sample?_of_parseLine (line : Line) (h : line.sample? = none) :
    parseLine line.text = none := by
  cases line with
  | sample line => simp [Line.sample?] at h
  | comment indent text oneLine => exact parseLine_comment indent text
  | empty indent => exact parseLine_empty indent

/-- The text of any lines reads back as their samples, in order and with their labels, if and only
if every line is readable; and a line of any text that is not read leaves the samples of the other
lines as they are. -/
theorem metrics_text_round_trip (lines : List Line) :
    (parsePrometheusText (exposition lines) = lines.filterMap Line.sample? ↔
      ∀ line ∈ lines, line.Readable) ∧
    ∀ before after : List (List Char), ∀ bad : List Char,
      (∀ line ∈ before ++ bad :: after, '\n' ∉ line) → parseLine bad = none →
      parsePrometheusText (['\n'].intercalate (before ++ bad :: after)) =
        parsePrometheusText (['\n'].intercalate before) ++
          parsePrometheusText (['\n'].intercalate after) := by
  constructor
  · have htexts : ∀ text ∈ lines.map Line.text, '\n' ∉ text := by
      intro text htext
      obtain ⟨line, -, rfl⟩ := List.mem_map.mp htext
      exact line.newline_not_mem
    rw [exposition, parsePrometheusText_lines htexts, List.filterMap_map]
    rw [Sequences.filterMap_eq_filterMap_iff fun line _ hnone => line.sample?_of_parseLine hnone]
    exact forall₂_congr fun line _ => line.parseLine_eq_iff
  · intro before after bad hlines hbad
    have hbefore : ∀ line ∈ before, '\n' ∉ line :=
      fun line hline => hlines line (List.mem_append_left _ hline)
    have hafter : ∀ line ∈ after, '\n' ∉ line :=
      fun line hline => hlines line (List.mem_append_right _ (List.mem_cons_of_mem bad hline))
    rw [parsePrometheusText_lines hlines, parsePrometheusText_lines hbefore,
      parsePrometheusText_lines hafter, List.filterMap_append, List.filterMap_cons_none hbad]

/-- `up{__proto__="x"} 1`. -/
def protoLine : SampleLine where
  indent := []
  name := ⟨'u', ['p'], rfl, List.forall_mem_singleton.mpr rfl⟩
  block := some ⟨[], [], [⟨⟨'_', "_proto__".toList, rfl, List.all_eq_true.mp rfl⟩, ['x'], [], [], [],
    []⟩], none, List.nodup_singleton _⟩
  gap := [.space]
  value := ⟨['1'], .decimal false 1 0, List.forall_mem_singleton.mpr (by decide), by decide⟩
  tail := none
  separated := by simp
  oneLine := by simp

/-- The label is lost. -/
theorem proto_label_is_lost :
    ¬ ∀ lines : List Line, parsePrometheusText (exposition lines) = lines.filterMap Line.sample? := by
  intro hall
  have hlabels : (parsePrometheusText (exposition [.sample protoLine])).map
      (fun sample => sample.labels.entries) = [[]] := by decide
  rw [hall] at hlabels
  exact absurd hlabels (by decide)

end FerrumNexus.Telemetry
