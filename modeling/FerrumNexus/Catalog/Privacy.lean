import FerrumNexus.Catalog.Visibility

/-!
# A private API is as if it were absent

To an account with no standing on a private API, each operation that reads APIs
answers as it would on tables without that API's row. Two operations do tell of
it: a taken slug is refused, and the notice of a revocation names the API.
-/
namespace FerrumNexus.Catalog

open Portal Platform

variable {π : Type} {s : Store π} {viewer : UserRow} {api : ApiRow π}

/-- The tables without one API's row. -/
def hide (s : Store π) (api : ApiRow π) : Store π where
  apis := s.apis.filter fun row => row.id != api.id
  users := s.users
  grants := s.grants
  requests := s.requests
  viewers := s.viewers
  applications := s.applications
  specs := s.specs
  changes := s.changes
  gatewayUrl := s.gatewayUrl
  users_nodup := s.users_nodup
  ids_nodup := s.ids_nodup.sublist (List.filter_sublist.map _)
  slugs_nodup := s.slugs_nodup.sublist (List.filter_sublist.map _)

/-- A private API of which the account is neither owner, administrator, grantee
through any identity, nor authorised viewer. -/
structure Outsider (s : Store π) (viewer : UserRow) (api : ApiRow π) : Prop where
  mem : api ∈ s.apis
  hidden : api.visibility = .ofPrivate
  notOwner : api.ownerUserId ≠ viewer.id
  notAdmin : roleAtLeast viewer.role .admin = false
  noGrant : ¬HasGrant s viewer.id api.id
  notViewer : ¬IsViewer s viewer.id api.id

theorem Outsider.isInsider_eq (h : Outsider s viewer api) :
    isInsider viewer api (resolveReadAccess s viewer api) = false := by
  rw [Bool.eq_false_iff]
  intro hinside
  rcases isInsider_iff.mp hinside with howner | hadmin | hgrant | hviewer
  · exact h.notOwner howner
  · rw [h.notAdmin] at hadmin
    cases hadmin
  · exact h.noGrant hgrant
  · exact h.notViewer hviewer

theorem Outsider.canListApi_eq (h : Outsider s viewer api) :
    canListApi viewer api (resolveReadAccess s viewer api) = false := by
  unfold canListApi
  rw [h.isInsider_eq, h.hidden, Bool.false_or]
  exact Bool.and_false _

theorem Outsider.canViewApi_eq (h : Outsider s viewer api) :
    canViewApi viewer api (resolveReadAccess s viewer api) = false := by
  unfold canViewApi
  rw [h.isInsider_eq, h.hidden, Bool.false_or]
  exact Bool.and_false _

theorem row_eq_of_id (hapi : api ∈ s.apis) {row : ApiRow π} (hrow : row ∈ s.apis)
    (hid : row.id = api.id) : row = api :=
  List.inj_on_of_nodup_map s.ids_nodup hrow hapi hid

/-- A filter that drops the row does the same to the tables without it. -/
theorem filter_hide (hapi : api ∈ s.apis) {keep : ApiRow π → Bool} (hdrop : keep api = false) :
    (hide s api).apis.filter keep = s.apis.filter keep := by
  unfold hide
  rw [List.filter_filter]
  apply List.filter_congr
  intro row hrow
  by_cases hid : row.id = api.id
  · rw [row_eq_of_id hapi hrow hid, hdrop, Bool.false_and]
  · rw [bne_iff_ne.mpr hid, Bool.and_true]

/-- A search for another row finds the same on the tables without it. -/
theorem find?_hide (hapi : api ∈ s.apis) {wanted : ApiRow π → Bool} (hmiss : wanted api = false) :
    (hide s api).apis.find? wanted = s.apis.find? wanted := by
  rw [← List.head?_filter, ← List.head?_filter, filter_hide hapi hmiss]

/-- A search for the row finds nothing once it is gone. -/
theorem find?_hide_self {wanted : ApiRow π → Bool}
    (honly : ∀ row ∈ s.apis, wanted row = true → row = api) :
    (hide s api).apis.find? wanted = none := by
  rw [List.find?_eq_none]
  intro row hrow hwanted
  obtain ⟨hmem, hne⟩ := List.mem_filter.mp hrow
  rw [honly row hmem hwanted] at hne
  exact absurd rfl (bne_iff_ne.mp hne)

theorem resolveReadAccess_hide (row : ApiRow π) :
    resolveReadAccess (hide s api) viewer row = resolveReadAccess s viewer row := rfl

section Operations

variable (toLowerCase : String → String)

theorem Outsider.list_eq (h : Outsider s viewer api) (filter : CatalogFilter)
    (options : ListOptions) :
    list toLowerCase s viewer filter options = list toLowerCase (hide s api) viewer filter options := by
  have hrows : (hide s api).apis.filter (fun row => matchesFilter toLowerCase filter row &&
      (visibleTo s viewer).all fun condition => apiViewerCondition condition row) =
        s.apis.filter fun row => matchesFilter toLowerCase filter row &&
          (visibleTo s viewer).all fun condition => apiViewerCondition condition row := by
    apply filter_hide h.mem
    rw [visibleTo_eq_canListApi, h.canListApi_eq, Bool.and_false]
  have hfound : ∀ limit offset, listApis toLowerCase (hide s api) filter (visibleTo s viewer) limit
      offset = listApis toLowerCase s filter (visibleTo s viewer) limit offset := by
    intro limit offset
    unfold listApis
    rw [hrows]
  unfold list
  have hcondition : visibleTo (hide s api) viewer = visibleTo s viewer := rfl
  rw [hcondition, hfound]
  rfl

/-- By its slug, a hidden API is as good as absent. -/
theorem Outsider.viewableApi_eq (h : Outsider s viewer api) (slug : String) :
    viewableApi toLowerCase s viewer slug = viewableApi toLowerCase (hide s api) viewer slug := by
  unfold viewableApi findBySlug
  by_cases hslug : (sqlLower api.slug.val == toLowerCase (trim slug)) = true
  · have honly : ∀ row ∈ s.apis, (sqlLower row.slug.val == toLowerCase (trim slug)) = true →
        row = api := by
      intro row hrow hsame
      rw [beq_iff_eq, sqlLower_slug] at hslug hsame
      exact List.inj_on_of_nodup_map s.slugs_nodup hrow h.mem
        (Subtype.ext (hsame.trans hslug.symm))
    rw [find?_hide_self honly]
    cases hfound : s.apis.find? fun row => sqlLower row.slug.val == toLowerCase (trim slug) with
    | none => rfl
    | some row =>
      have hwanted := List.find?_some hfound
      have hrow := honly row (List.mem_of_find?_eq_some hfound) hwanted
      subst hrow
      simp only [h.canViewApi_eq, Bool.false_eq_true, if_false]
  · rw [Bool.not_eq_true] at hslug
    rw [find?_hide h.mem hslug]
    rfl

theorem Outsider.findManyByIds_eq (h : Outsider s viewer api) (ids : List ℕ) :
    filterReadableApis s viewer (findManyByIds s ids) =
      filterReadableApis (hide s api) viewer (findManyByIds (hide s api) ids) := by
  rw [filterReadableApis_eq, filterReadableApis_eq]
  unfold findManyByIds
  rw [List.filter_filter, List.filter_filter]
  symm
  apply filter_hide h.mem
  rw [resolveReadAccess_hide, h.canViewApi_eq, h.hidden]
  rfl

theorem Outsider.embedApis_eq (h : Outsider s viewer api) {α : Type} (apiId : α → Option ℕ)
    (rows : List α) : embedApis apiId s rows viewer = embedApis apiId (hide s api) rows viewer := by
  unfold embedApis
  rw [h.findManyByIds_eq]
  rfl

/-- By its id too. -/
theorem Outsider.namedApi_eq (h : Outsider s viewer api) (apiId : ℕ) :
    namedApi s viewer apiId = namedApi (hide s api) viewer apiId := by
  unfold namedApi findById
  by_cases hid : (api.id == apiId) = true
  · have honly : ∀ row ∈ s.apis, (row.id == apiId) = true → row = api := by
      intro row hrow hsame
      rw [beq_iff_eq] at hid hsame
      exact row_eq_of_id h.mem hrow (hsame.trans hid.symm)
    rw [find?_hide_self honly]
    cases hfound : s.apis.find? fun row => row.id == apiId with
    | none => rfl
    | some row =>
      have hwanted := List.find?_some hfound
      have hrow := honly row (List.mem_of_find?_eq_some hfound) hwanted
      subst hrow
      simp only [h.canViewApi_eq, h.hidden]
      rfl
  · rw [Bool.not_eq_true] at hid
    rw [find?_hide h.mem hid]
    rfl

theorem Outsider.canReadApiSummary_eq (h : Outsider s viewer api) :
    canReadApiSummary s viewer api = false := by
  unfold canReadApiSummary
  rw [filterReadableApis_eq]
  simp [h.hidden, h.canViewApi_eq]

/-- No operation that reads APIs tells the account of this one. -/
structure Unseen (renderSpec : SpecRow → String → π → Option Rendering) (s : Store π)
    (viewer : UserRow) (api : ApiRow π) : Prop where
  list : ∀ filter options,
    list toLowerCase s viewer filter options = list toLowerCase (hide s api) viewer filter options
  detail : ∀ slug, detail toLowerCase s viewer slug = detail toLowerCase (hide s api) viewer slug
  identityAccess : ∀ slug applicationId, identityAccess toLowerCase s viewer slug applicationId =
    identityAccess toLowerCase (hide s api) viewer slug applicationId
  changes : ∀ slug options, changes toLowerCase s viewer slug options =
    changes toLowerCase (hide s api) viewer slug options
  change : ∀ slug revisionId, change toLowerCase s viewer slug revisionId =
    change toLowerCase (hide s api) viewer slug revisionId
  spec : ∀ slug, spec toLowerCase renderSpec s viewer slug =
    spec toLowerCase renderSpec (hide s api) viewer slug
  requests : ∀ rows, decorateRequests s rows viewer = decorateRequests (hide s api) rows viewer
  grants : ∀ rows, decorateGrants s rows viewer = decorateGrants (hide s api) rows viewer
  threads : ∀ rows, decorate s rows viewer = decorate (hide s api) rows viewer
  request : ∀ apiId applicationId,
    request s viewer apiId applicationId = request (hide s api) viewer apiId applicationId
  startThread : ∀ apiId, startThread s viewer apiId = startThread (hide s api) viewer apiId
  denial : ∀ actor label tools other, Outsider s viewer other →
    denialNotice s actor viewer api label tools = denialNotice s actor viewer other label tools

/-- No reading operation tells an outsider of the API. -/
theorem Outsider.unseen (renderSpec : SpecRow → String → π → Option Rendering)
    (h : Outsider s viewer api) : Unseen toLowerCase renderSpec s viewer api where
  list := h.list_eq toLowerCase
  detail slug := by
    unfold Catalog.detail
    rw [h.viewableApi_eq]
    rfl
  identityAccess slug applicationId := by
    unfold Catalog.identityAccess
    rw [h.viewableApi_eq]
    rfl
  changes slug options := by
    unfold Catalog.changes
    rw [h.viewableApi_eq]
    rfl
  change slug revisionId := by
    unfold Catalog.change
    rw [h.viewableApi_eq]
    rfl
  spec slug := by
    unfold Catalog.spec
    rw [h.viewableApi_eq]
    rfl
  requests := h.embedApis_eq _
  grants := h.embedApis_eq _
  threads := h.embedApis_eq _
  request apiId applicationId := by
    unfold Catalog.request
    rw [h.namedApi_eq]
    rfl
  startThread apiId := by
    unfold Catalog.startThread
    rw [h.namedApi_eq]
  denial actor label tools other hother := by
    unfold denialNotice
    rw [h.canReadApiSummary_eq, hother.canReadApiSummary_eq]
    rfl

end Operations

theorem mem_visibleRows (toLowerCase : String → String) (filter : CatalogFilter) :
    api ∈ visibleRows toLowerCase s viewer filter ↔ api ∈ s.apis ∧
      matchesFilter toLowerCase filter api = true ∧
      canListApi viewer api (resolveReadAccess s viewer api) = true := by
  unfold visibleRows
  rw [List.mem_mergeSort, List.mem_filter, Bool.and_eq_true]

theorem nodup_visibleRows (toLowerCase : String → String) (filter : CatalogFilter) :
    (visibleRows toLowerCase s viewer filter).Nodup := by
  unfold visibleRows
  rw [(List.mergeSort_perm _ _).nodup_iff]
  exact s.ids_nodup.of_map.filter _

/-- The browse list, page by page, is each API the rule lists once, as the detail
page opens it; the listings keep what the rule opens or is not private; and what
an account reads does not depend on a private API it has no standing on. -/
theorem one_visibility_rule (toLowerCase : String → String) (hlower : LowersSlugs toLowerCase)
    (renderSpec : SpecRow → String → π → Option Rendering) (s : Store π) (viewer : UserRow) :
    (∀ filter limit m, (list toLowerCase s viewer filter ⟨limit, none⟩).total ≤
        m * clampPageSize limit →
      ((List.range m).flatMap fun n => (list toLowerCase s viewer filter
        ⟨limit, some ((n * clampPageSize limit : ℕ) : ℤ)⟩).items) =
          (visibleRows toLowerCase s viewer filter).map (entryOf s viewer)) ∧
    (∀ filter options, (list toLowerCase s viewer filter options).total =
      (visibleRows toLowerCase s viewer filter).length) ∧
    (∀ filter, (visibleRows toLowerCase s viewer filter).Nodup ∧
      ∀ api, api ∈ visibleRows toLowerCase s viewer filter ↔ api ∈ s.apis ∧
        matchesFilter toLowerCase filter api = true ∧
        canListApi viewer api (resolveReadAccess s viewer api) = true) ∧
    (∀ api : ApiRow π, matchesFilter toLowerCase {} api = true) ∧
    (∀ filter, ∀ api ∈ visibleRows toLowerCase s viewer filter, ∃ page,
      detail toLowerCase s viewer api.slug.val = .ok page ∧ page.api = entryOf s viewer api) ∧
    (∀ apis, filterReadableApis s viewer apis = apis.filter fun api =>
      api.visibility != .ofPrivate || canViewApi viewer api (resolveReadAccess s viewer api)) ∧
    ∀ api, Outsider s viewer api → Unseen toLowerCase renderSpec s viewer api := by
  refine ⟨fun filter limit m htotal => ?_, list_total toLowerCase, fun filter =>
    ⟨nodup_visibleRows toLowerCase filter, fun api => mem_visibleRows toLowerCase filter⟩,
    fun api => rfl, fun filter api hapi => ?_, filterReadableApis_eq,
    fun api h => h.unseen toLowerCase renderSpec⟩
  · rw [list_total] at htotal
    simp only [list_items, clampOffset_ofNat]
    rw [← List.map_flatMap, flatMap_pages, List.take_of_length_le htotal]
  · obtain ⟨hmem, -, hlist⟩ := (mem_visibleRows toLowerCase filter).mp hapi
    exact ⟨_, detail_of_canView hlower hmem (canViewApi_of_canListApi hlist), rfl⟩

/-! ## What two operations tell -/

def payrollApi : ApiRow Unit where
  id := 1
  name := "Payroll"
  slug := ⟨"payroll", by decide⟩
  description := ""
  ownerUserId := 1
  upstreamUrl := "https://payroll.internal"
  namespaceName := "nexus"
  version := "1.0.0"
  requestable := true
  agents := none
  status := .published
  visibility := .ofPrivate
  createdAt := 1
  policy := ()

def provider : UserRow := ⟨⟨1, .provider, .active⟩, "provider@example.com", "Provider"⟩

def formerGrantee : UserRow := ⟨⟨2, .provider, .active⟩, "grantee@example.com", "Grantee"⟩

/-- The account's grant has been revoked. -/
def payrollStore : Store Unit where
  apis := [payrollApi]
  users := [provider, formerGrantee]
  grants := [⟨⟨1, 1, 2, none, none, none, .revoked, some 1, some 2⟩, 1⟩]
  requests := []
  viewers := []
  applications := []
  specs := []
  changes := []
  gatewayUrl := none
  users_nodup := by decide
  ids_nodup := by decide
  slugs_nodup := by decide

theorem formerGrantee_outsider : Outsider payrollStore formerGrantee payrollApi := by
  refine ⟨List.mem_singleton_self _, rfl, by decide, rfl, ?_, ?_⟩
  · rintro ⟨grant, hgrant, hactive⟩
    rw [List.mem_singleton.mp hgrant] at hactive
    exact absurd hactive (by decide)
  · rintro ⟨row, hrow, -⟩
    cases hrow

theorem one_visibility_rule_payroll :
    Unseen sqlLower (fun _ _ _ => none) payrollStore formerGrantee payrollApi :=
  (one_visibility_rule sqlLower sqlLower_slug (fun _ _ _ => none) payrollStore
    formerGrantee).2.2.2.2.2.2 payrollApi formerGrantee_outsider

/-- A new API may not take the slug of a private one, which it could if that were
absent, and the notice of the revocation names the API to an account that has no
standing left. -/
theorem slugs_and_revocations_tell :
    Outsider payrollStore formerGrantee payrollApi ∧
    resolveSlug sqlLower id payrollStore (some "payroll") "Payroll" =
      .error (conflict "The slug 'payroll' is already in use by another API") ∧
    resolveSlug sqlLower id (hide payrollStore payrollApi) (some "payroll") "Payroll" =
      .ok "payroll" ∧
    revocationNotice provider payrollApi =
      ⟨"Access revoked: Payroll", "Provider revoked your access to Payroll.", "/catalog/payroll"⟩ :=
  ⟨formerGrantee_outsider, by decide, by decide, by decide⟩

end FerrumNexus.Catalog
