import FerrumNexus.Publishing.SpecListing

/-!
# A comparison sees through hoisting

What a document says of an operation is read off it once: its own members, and
the parameters it and its Path Item declare, each with its identity and as it is
written. The normal form of an operation has its effective parameters in place
of its own. Two operations differ exactly if their normal forms do, so it cannot
be seen where a parameter is declared.
-/
namespace FerrumNexus.Publishing.Differences

open Formats OpenApi Platform Saga Metered Sequences SpecChanges

variable {ι κ ν : Type}

/-! ## Readings -/

/-- A declared parameter: its identity, and what is written. -/
structure Entry where
  identity : Option Identity
  written : Json String

/-- An operation and the parameters it inherits. -/
structure Reading where
  /-- Its own members but `parameters`. -/
  rest : Operation
  /-- A `parameters` member that is no list. -/
  odd : Option (Json String)
  shared : List Entry
  own : List Entry

section Reading

variable [Fintype ν] (texts : Texts) (doc : Document ν)

def entryOf (value : Value ν) : Entry := ⟨identityAt texts doc value, doc.content value⟩

def entriesIn (declaring : ν) : List Entry :=
  (parametersIn doc (doc.own declaring "parameters")).map (entryOf texts doc)

def readingOf (listed : ListedOperation ν) : Reading where
  rest := restOf doc listed.operation
  odd :=
    let written := doc.own listed.operation "parameters"
    if (doc.array? written).isSome then none else written.map doc.content
  shared := entriesIn texts doc listed.item
  own := entriesIn texts doc listed.operation

/-- What a document says of the operation under a path and a method. -/
def readingAt (path : String) (method : OperationMethod) : Option Reading :=
  (operationAt doc path method).map (readingOf texts doc)

end Reading

/-! ## Normal forms -/

section Forms

variable (texts : Texts)

/-- Identities in the order of the texts that spell them. -/
def identityRank (identity : Identity) : List ℕ := codeUnits (identityKey texts identity)

/-- Own parameters merged over shared ones, in canonical order. -/
def Reading.effective (reading : Reading) : List Entry :=
  canonical Entry.identity (identityRank texts) (override Entry.identity reading.shared reading.own)

def Reading.normalForm (reading : Reading) : Operation :=
  let effective := reading.effective texts
  reading.rest ++
    if effective ≠ [] then [("parameters", .array (effective.map Entry.written))]
    else (reading.odd.map ("parameters", ·)).toList

/-- One normal form, whatever the order of its members. -/
def SameForm (reading reading' : Reading) : Prop :=
  isDeepStrictEqual (.object (reading.normalForm texts)) (.object (reading'.normalForm texts)) = true

end Forms

/-! ## Hoisting -/

/-- A shared parameter is moved to the operation, or dropped where the operation
overrides it. One that is moved must be known by its identity and be the only
one of its identity. -/
inductive Hoisted : Reading → Reading → Prop
  | moved {rest : Operation} {shared shared' own own' : List Entry} {entry : Entry}
      {identity : Identity} (hidentity : entry.identity = some identity)
      (halone : ∀ other ∈ shared ++ shared' ++ (own ++ own'), other.identity ≠ some identity) :
      Hoisted ⟨rest, none, shared ++ entry :: shared', own ++ own'⟩
        ⟨rest, none, shared ++ shared', own ++ entry :: own'⟩
  | dropped {rest : Operation} {odd : Option (Json String)} {shared shared' own : List Entry}
      {entry : Entry} {identity : Identity} (hidentity : entry.identity = some identity)
      (hoverridden : ∃ other ∈ own, other.identity = some identity) :
      Hoisted ⟨rest, odd, shared ++ entry :: shared', own⟩ ⟨rest, odd, shared ++ shared', own⟩

/-- The second document is the first with a parameter of the Path Item at `path`
moved or dropped under every operation. -/
def HoistedAt [Fintype ι] [Fintype κ] (texts : Texts) (before : Document ι) (after : Document κ)
    (path : String) : Prop :=
  ∀ path' method, Option.Rel (fun reading reading' =>
      if path' = path then Hoisted reading reading' else reading = reading')
    (readingAt texts before path' method) (readingAt texts after path' method)

/-! ## The order of identities -/

theorem charUnits_append {c d : Char} {us vs : List ℕ} (h : charUnits c ++ us = charUnits d ++ vs) :
    c = d ∧ us = vs := by
  have hc : c.toNat < 0xD800 ∨ 0xDFFF < c.toNat ∧ c.toNat < 0x110000 := c.valid
  have hd : d.toNat < 0xD800 ∨ 0xDFFF < d.toNat ∧ d.toNat < 0x110000 := d.valid
  have hchar (heq : c.toNat = d.toNat) : c = d := Char.ext (UInt32.toNat_inj.1 heq)
  unfold charUnits at h
  by_cases hlong : 0xFFFF < c.toNat
  · by_cases hlong' : 0xFFFF < d.toNat
    · simp only [if_pos hlong, if_pos hlong', List.cons_append, List.nil_append,
        List.cons.injEq] at h
      exact ⟨hchar (by omega), h.2.2⟩
    · simp only [if_pos hlong, if_neg hlong', List.cons_append, List.nil_append,
        List.cons.injEq] at h
      omega
  · by_cases hlong' : 0xFFFF < d.toNat
    · simp only [if_neg hlong, if_pos hlong', List.cons_append, List.nil_append,
        List.cons.injEq] at h
      omega
    · simp only [if_neg hlong, if_neg hlong', List.cons_append, List.nil_append,
        List.cons.injEq] at h
      exact ⟨hchar h.1, h.2⟩

theorem codeUnits_injective : Function.Injective codeUnits := by
  intro text text' h
  apply String.toList_injective
  have hnonempty (c : Char) : charUnits c ≠ [] := by
    unfold charUnits
    split <;> simp
  have hlists : ∀ xs ys : List Char, xs.flatMap charUnits = ys.flatMap charUnits → xs = ys := by
    intro xs
    induction xs with
    | nil =>
      intro ys hys
      cases ys with
      | nil => rfl
      | cons y ys => simp [hnonempty] at hys
    | cons x xs ih =>
      intro ys hys
      cases ys with
      | nil => simp [hnonempty] at hys
      | cons y ys =>
        obtain ⟨rfl, hrest⟩ := charUnits_append hys
        rw [ih ys hrest]
  exact hlists _ _ h

/-! ## What is compared is the normal form -/

section Document

variable [Fintype ν] {texts : Texts} {doc : Document ν}

theorem identityAt_eq_some {value : Value ν} {identity : Identity}
    (h : identityAt texts doc value = some identity) :
    ∃ parameter, identityOf texts doc parameter = some identity := by
  obtain ⟨parameter, -, hidentity⟩ := Option.bind_eq_some_iff.1 h
  exact ⟨parameter, hidentity⟩

theorem identityRank_inj (hdoc : NoCollision texts doc) {value value' : Value ν}
    {identity identity' : Identity} (h : identityAt texts doc value = some identity)
    (h' : identityAt texts doc value' = some identity')
    (hrank : identityRank texts identity = identityRank texts identity') : identity = identity' := by
  obtain ⟨parameter, hparameter⟩ := identityAt_eq_some h
  obtain ⟨parameter', hparameter'⟩ := identityAt_eq_some h'
  exact identityKey_inj hdoc hparameter hparameter' (codeUnits_injective hrank)

/-- The effective parameters of an operation, as values of the document. -/
def effectiveValues (texts : Texts) (doc : Document ν) (listed : ListedOperation ν) : List (Value ν) :=
  canonical (identityAt texts doc) (identityRank texts) (override (identityAt texts doc)
    (parametersIn doc (doc.own listed.item "parameters"))
    (parametersIn doc (doc.own listed.operation "parameters")))

theorem canonicalParameters_eq (hdoc : NoCollision texts doc) (listed : ListedOperation ν) :
    canonicalParameters (mergeOpenApiParameters
        (keyedList texts doc (doc.own listed.item "parameters"))
        (keyedList texts doc (doc.own listed.operation "parameters"))) =
      effectiveValues texts doc listed := by
  let lower := parametersIn doc (doc.own listed.item "parameters")
  let upper := parametersIn doc (doc.own listed.operation "parameters")
  have hoverride : override KeyedOpenApiParameter.key (lower.map (keyedParameter texts doc))
        (upper.map (keyedParameter texts doc)) =
      (override (identityAt texts doc) lower upper).map (keyedParameter texts doc) := by
    symm
    apply map_override (f := identityKey texts)
    · intro value _
      rfl
    · intro value _ value' _ identity identity' hidentity hidentity' hkey
      exact identityRank_inj hdoc hidentity hidentity' (congrArg codeUnits hkey)
  have hcanonical : canonical KeyedOpenApiParameter.key codeUnits
        ((override (identityAt texts doc) lower upper).map (keyedParameter texts doc)) =
      (effectiveValues texts doc listed).map (keyedParameter texts doc) := by
    symm
    apply map_canonical (f := identityKey texts)
    · intro value _
      rfl
    · intro identity
      rfl
  show (canonical KeyedOpenApiParameter.key codeUnits (override KeyedOpenApiParameter.key
    (lower.map (keyedParameter texts doc)) (upper.map (keyedParameter texts doc)))).map
      KeyedOpenApiParameter.parameter = _
  rw [hoverride, hcanonical, List.map_map]
  exact List.map_id _

theorem effective_readingOf (listed : ListedOperation ν) :
    (readingOf texts doc listed).effective texts =
      (effectiveValues texts doc listed).map (entryOf texts doc) := by
  let lower := parametersIn doc (doc.own listed.item "parameters")
  let upper := parametersIn doc (doc.own listed.operation "parameters")
  have hoverride : override Entry.identity (lower.map (entryOf texts doc))
        (upper.map (entryOf texts doc)) =
      (override (identityAt texts doc) lower upper).map (entryOf texts doc) := by
    symm
    apply map_override (f := id)
    · intro value _
      exact (Option.map_id_apply).symm
    · intro value _ value' _ identity identity' _ _ heq
      exact heq
  have hcanonical : canonical Entry.identity (identityRank texts)
        ((override (identityAt texts doc) lower upper).map (entryOf texts doc)) =
      (effectiveValues texts doc listed).map (entryOf texts doc) := by
    symm
    apply map_canonical (f := id)
    · intro value _
      exact (Option.map_id_apply).symm
    · intro identity
      rfl
  show canonical Entry.identity (identityRank texts) (override Entry.identity
    (lower.map (entryOf texts doc)) (upper.map (entryOf texts doc))) = _
  rw [hoverride, hcanonical]

theorem member_append (members members' : Operation) (name : String) :
    member (members ++ members') name = (member members name).or (member members' name) := by
  rw [member, List.find?_append]
  unfold member
  cases List.find? (fun entry => entry.1 == name) members <;> rfl

theorem member_restOf (operation : ν) (name : String) :
    member (restOf doc operation) name =
      if name = "parameters" then none else (doc.own operation name).map doc.content := by
  rw [← member_contents, restOf, member, List.find?_filter]
  by_cases hname : name = "parameters"
  · rw [if_pos hname, Option.map_eq_none_iff, List.find?_eq_none]
    intro entry _
    simp [hname]
  · rw [if_neg hname, member]
    congr 2
    funext entry
    by_cases heq : entry.1 = name
    · simp [heq, hname]
    · simp [heq]

/-- The operation that is compared has the members of the normal form. -/
theorem member_foldedOperation (hdoc : NoCollision texts doc) (listed : ListedOperation ν)
    (name : String) :
    member (foldedOperation texts doc listed.item listed.operation) name =
      member ((readingOf texts doc listed).normalForm texts) name := by
  have hwritten : (effectiveValues texts doc listed).map doc.content =
      ((effectiveValues texts doc listed).map (entryOf texts doc)).map Entry.written := by
    rw [List.map_map]
    rfl
  rw [foldedOperation, canonicalParameters_eq hdoc, Reading.normalForm, effective_readingOf]
  unfold normalized
  by_cases hempty : effectiveValues texts doc listed = []
  · simp only [hempty, ne_eq, not_true_eq_false, if_false, List.map_nil, readingOf]
    cases hparameters : doc.own listed.operation "parameters" with
    | none => simp
    | some written =>
      by_cases harray : (doc.array? (some written)).isSome = true
      · simp [harray]
      · simp only [Option.isNone_some, Bool.false_eq_true, harray, or_self, if_false,
          Option.map_some, Option.toList_some]
        rw [member_append, member_restOf, member_contents]
        by_cases hname : name = "parameters"
        · subst hname
          simp [hparameters, member]
        · simp [hname, member, Ne.symm hname]
  · simp only [ne_eq, hempty, not_false_eq_true, if_true, List.map_eq_nil_iff, hwritten, readingOf]

theorem normalForm_names (listed : ListedOperation ν) :
    (((readingOf texts doc listed).normalForm texts).map Prod.fst).Nodup := by
  have hcontents : ((doc.contents listed.operation).map Prod.fst).Nodup := by
    rw [Document.contents_names]
    exact (doc.members listed.operation).distinct
  have hrest : ((restOf doc listed.operation).map Prod.fst).Nodup :=
    (List.filter_sublist.map Prod.fst).nodup hcontents
  have hnot : "parameters" ∉ (restOf doc listed.operation).map Prod.fst := by
    rw [← member_eq_none, member_restOf, if_pos rfl]
  have hone (value : Json String) :
      ((restOf doc listed.operation ++ [("parameters", value)]).map Prod.fst).Nodup := by
    rw [List.map_append, List.nodup_append]
    refine ⟨hrest, by simp, ?_⟩
    intro name hname other hother
    rw [List.map_cons, List.map_nil, List.mem_singleton] at hother
    rintro rfl
    rw [hother] at hname
    exact hnot hname
  by_cases heffective : (readingOf texts doc listed).effective texts = []
  · simp only [Reading.normalForm, heffective, ne_eq, not_true_eq_false, if_false]
    cases (readingOf texts doc listed).odd with
    | none =>
      rw [Option.map_none, Option.toList_none, List.append_nil]
      exact hrest
    | some odd => exact hone odd
  · simp only [Reading.normalForm, ne_eq, heffective, not_false_eq_true, if_true]
    exact hone _

end Document

theorem memberChanges_folded [Fintype ι] [Fintype κ] {texts : Texts} {before : Document ι}
    {after : Document κ} (hbefore : NoCollision texts before) (hafter : NoCollision texts after)
    (listed : ListedOperation ι) (listed' : ListedOperation κ) :
    memberChanges (foldedOperation texts before listed.item listed.operation)
        (foldedOperation texts after listed'.item listed'.operation) = [] ↔
      SameForm texts (readingOf texts before listed) (readingOf texts after listed') := by
  rw [memberChanges_eq_nil, SameForm, isDeepStrictEqual_object (normalForm_names listed)
    (normalForm_names listed')]
  apply forall_congr'
  intro name
  rw [member_foldedOperation hbefore, member_foldedOperation hafter]

end FerrumNexus.Publishing.Differences
