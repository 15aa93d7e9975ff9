import FerrumNexus.Catalog.Service

/-!
# One rule on every surface

The rule reads two facts of the tables: whether an active grant of the account
names the API, through any identity, and whether an authorisation does. Each
evaluation of it is shown to come down to them, so that the list's query, the
detail page's check and the filter of the listings agree.
-/
namespace FerrumNexus.Catalog

open Portal Platform

variable {π : Type} {s : Store π} {viewer : UserRow} {api : ApiRow π}

/-! ## The two facts -/

/-- An active grant of the account names the API. -/
def HasGrant (s : Store π) (userId apiId : ℕ) : Prop :=
  ∃ grant ∈ s.grants, isActiveGrant apiId userId grant = true

/-- The account is authorised to read the API's documentation. -/
def IsViewer (s : Store π) (userId apiId : ℕ) : Prop :=
  ∃ row ∈ s.viewers, row.apiId = apiId ∧ row.userId = userId

theorem mem_pageOf {α : Type} {createdAt id : α → ℕ} {rows : List α} {limit offset : ℕ} {a : α}
    (h : a ∈ (pageOf createdAt id rows limit offset).items) : a ∈ rows :=
  List.mem_mergeSort.mp (List.mem_of_mem_drop (List.mem_of_mem_take h))

theorem pageOf_one_head? {α : Type} (createdAt id : α → ℕ) (rows : List α) :
    (pageOf createdAt id rows 1 0).items.head?.isSome ↔ rows ≠ [] := by
  unfold pageOf
  rw [List.drop_zero, List.head?_take, if_neg (by decide), List.isSome_head?,
    ← List.length_pos_iff, ← List.length_pos_iff, List.length_mergeSort]

theorem grant_isSome_iff :
    (resolveReadAccess s viewer api).grant.isSome = true ↔ HasGrant s viewer.id api.id := by
  unfold resolveReadAccess HasGrant
  constructor
  · intro h
    split at h
    · rename_i own hown
      have hfound := List.find?_some hown
      rw [Bool.and_eq_true] at hfound
      exact ⟨own, List.mem_of_find?_eq_some hown, hfound.1⟩
    · have hne := (pageOf_one_head? _ _ _).mp h
      obtain ⟨grant, hgrant⟩ := List.exists_mem_of_ne_nil _ hne
      exact ⟨grant, List.mem_filter.mp hgrant⟩
  · rintro ⟨grant, hmem, hactive⟩
    split
    · rfl
    · refine (pageOf_one_head? _ _ _).mpr (List.ne_nil_of_mem (a := grant) ?_)
      exact List.mem_filter.mpr ⟨hmem, hactive⟩

theorem isAuthorizedViewer_iff :
    (resolveReadAccess s viewer api).isAuthorizedViewer = true ↔ IsViewer s viewer.id api.id := by
  unfold resolveReadAccess findViewer IsViewer
  simp [List.find?_isSome]

theorem mem_listActiveByUser (userId apiId : ℕ) :
    apiId ∈ (listActiveByUser s userId).map (·.apiId) ↔ HasGrant s userId apiId := by
  unfold listActiveByUser HasGrant isActiveGrant
  constructor
  · intro h
    obtain ⟨grant, hgrant, rfl⟩ := List.mem_map.mp h
    obtain ⟨hmem, hactive⟩ := List.mem_filter.mp hgrant
    exact ⟨grant, hmem, by simpa using hactive⟩
  · intro h
    obtain ⟨grant, hmem, hactive⟩ := h
    simp only [Bool.and_eq_true, beq_iff_eq] at hactive
    obtain ⟨⟨rfl, huser⟩, hstatus⟩ := hactive
    exact List.mem_map.mpr ⟨grant, List.mem_filter.mpr ⟨hmem, by simp [huser, hstatus]⟩, rfl⟩

theorem mem_listApiIdsByUser (userId apiId : ℕ) :
    apiId ∈ listApiIdsByUser s userId ↔ IsViewer s userId apiId := by
  unfold listApiIdsByUser IsViewer
  constructor
  · intro h
    obtain ⟨row, hrow, rfl⟩ := List.mem_map.mp h
    obtain ⟨hmem, huser⟩ := List.mem_filter.mp hrow
    exact ⟨row, hmem, rfl, beq_iff_eq.mp huser⟩
  · rintro ⟨row, hmem, rfl, huser⟩
    exact List.mem_map.mpr ⟨row, List.mem_filter.mpr ⟨hmem, beq_iff_eq.mpr huser⟩, rfl⟩

theorem isInsider_iff :
    isInsider viewer api (resolveReadAccess s viewer api) = true ↔
      api.ownerUserId = viewer.id ∨ roleAtLeast viewer.role .admin = true ∨
        HasGrant s viewer.id api.id ∨ IsViewer s viewer.id api.id := by
  unfold isInsider
  rw [Bool.or_eq_true, Bool.or_eq_true, Bool.or_eq_true, beq_iff_eq, grant_isSome_iff,
    isAuthorizedViewer_iff, or_assoc, or_assoc]

/-! ## The list's query -/

/-- The condition of the query is the rule. -/
theorem visibleTo_eq_canListApi :
    ((visibleTo s viewer).all fun filter => apiViewerCondition filter api) =
      canListApi viewer api (resolveReadAccess s viewer api) := by
  rw [Bool.eq_iff_iff]
  unfold visibleTo canListApi
  rw [Bool.or_eq_true, isInsider_iff]
  by_cases hadmin : roleAtLeast viewer.role .admin = true
  · simp [hadmin]
  · rw [if_neg hadmin]
    simp only [Option.all_some, apiViewerCondition, Bool.or_eq_true, beq_iff_eq,
      List.contains_iff_mem, mem_listActiveByUser, mem_listApiIdsByUser, hadmin,
      List.mem_singleton, Bool.and_eq_true, false_or, or_assoc, Bool.false_eq_true]

/-- The rows of the browse list, newest first. -/
def visibleRows (toLowerCase : String → String) (s : Store π) (viewer : UserRow)
    (filter : CatalogFilter) : List (ApiRow π) :=
  (s.apis.filter fun api => matchesFilter toLowerCase filter api &&
    canListApi viewer api (resolveReadAccess s viewer api)).mergeSort fun a b =>
      b.createdAt < a.createdAt || (a.createdAt == b.createdAt && b.id ≤ a.id)

/-- The pages of one size, read from the first on, are the whole of a list. -/
theorem flatMap_pages {α : Type} (l : List α) (k m : ℕ) :
    ((List.range m).flatMap fun n => (l.drop (n * k)).take k) = l.take (m * k) := by
  induction m with
  | zero => simp
  | succ m ih =>
    rw [List.range_succ, List.flatMap_append, ih, List.flatMap_singleton, Nat.succ_mul,
      List.take_add]

theorem clampOffset_ofNat (n : ℕ) : clampOffset (some (n : ℤ)) = n := by
  simp [clampOffset]

/-! ## The joins of the list -/

/-- The last entry under a key, where the entries there agree with a lookup. -/
theorem lastUnder_eq {α : Type} {key : α → ℕ} {entries : List α} {id : ℕ} {found : Option α}
    (hsound : ∀ entry ∈ entries, key entry = id → found = some entry)
    (hcomplete : ∀ entry, found = some entry → entry ∈ entries ∧ key entry = id) :
    lastUnder key entries id = found := by
  unfold lastUnder
  cases hlast : entries.reverse.find? fun entry => key entry == id with
  | some entry =>
    have hkey := List.find?_some hlast
    have hmem := List.mem_reverse.mp (List.mem_of_find?_eq_some hlast)
    exact (hsound entry hmem (beq_iff_eq.mp hkey)).symm
  | none =>
    cases found with
    | none => rfl
    | some entry =>
      obtain ⟨hmem, hkey⟩ := hcomplete entry rfl
      have hmiss := List.find?_eq_none.mp hlast entry (List.mem_reverse.mpr hmem)
      exact absurd (beq_iff_eq.mpr hkey) hmiss

theorem find?_of_nodup {α : Type} {key : α → ℕ} {rows : List α} (h : (rows.map key).Nodup)
    {row : α} (hrow : row ∈ rows) : (rows.find? fun r => key r == key row) = some row := by
  cases hfound : rows.find? fun r => key r == key row with
  | none =>
    have hmiss := List.find?_eq_none.mp hfound row hrow
    exact absurd (beq_iff_eq.mpr rfl) hmiss
  | some found =>
    have hkey := List.find?_some hfound
    rw [beq_iff_eq] at hkey
    have hmem := List.mem_of_find?_eq_some hfound
    rw [List.inj_on_of_nodup_map h hmem hrow hkey]

theorem owner_eq {page : List (ApiRow π)} (hapi : api ∈ page) :
    lastUnder (·.id) (s.users.filter fun user => (page.map (·.ownerUserId)).contains user.id)
      api.ownerUserId = findUser s api.ownerUserId := by
  apply lastUnder_eq
  · intro user huser hid
    have hmem := (List.mem_filter.mp huser).1
    rw [← hid]
    exact find?_of_nodup s.users_nodup hmem
  · intro user huser
    have hid := List.find?_some huser
    rw [beq_iff_eq] at hid
    have hmem := List.mem_of_find?_eq_some huser
    refine ⟨List.mem_filter.mpr ⟨hmem, ?_⟩, hid⟩
    rw [List.contains_iff_mem, hid]
    exact List.mem_map_of_mem hapi

theorem latest_mem {rows : List RequestRow} {row : RequestRow} (h : latest rows = some row) :
    row ∈ rows := List.argmax_mem h

/-- The batched request of a page is the one that is read alone. -/
theorem request_eq {apiIds : List ℕ} {apiId : ℕ} (hapi : apiId ∈ apiIds) (userId : ℕ) :
    lastUnder (·.apiId) (listLatestForUser s userId apiIds) apiId =
      findLatestByApiAndUser s apiId userId := by
  have hrows : (s.requests.filter fun row => row.userId == userId && apiIds.contains row.apiId
      ).filter (fun row => row.apiId == apiId) =
        s.requests.filter fun row => row.apiId == apiId && row.userId == userId := by
    rw [List.filter_filter]
    apply List.filter_congr
    intro row _
    by_cases hid : row.apiId = apiId
    · simp [hid, hapi]
    · have hmiss : (row.apiId == apiId) = false := beq_false_of_ne hid
      rw [hmiss, Bool.false_and, Bool.false_and]
  apply lastUnder_eq
  · intro row hrow hid
    obtain ⟨id, hmem, hlatest⟩ := List.mem_filterMap.mp hrow
    have hid' := (List.mem_filter.mp (latest_mem hlatest)).2
    rw [beq_iff_eq] at hid'
    have hsame : id = apiId := hid'.symm.trans hid
    rw [hsame, hrows] at hlatest
    exact hlatest
  · intro row hrow
    have hfound : row ∈ s.requests.filter fun row => row.apiId == apiId && row.userId == userId :=
      latest_mem hrow
    rw [← hrows] at hfound
    obtain ⟨hmem, hid⟩ := List.mem_filter.mp hfound
    rw [beq_iff_eq] at hid
    refine ⟨List.mem_filterMap.mpr ⟨apiId, ?_, ?_⟩, hid⟩
    · exact List.mem_dedup.mpr (List.mem_map.mpr ⟨row, hmem, hid⟩)
    · rw [hrows]
      exact hrow

theorem accessState_congr {grant grant' : Option GrantRow} (request : Option RequestRow)
    (h : (grant.any fun grant => grant.status == .active) =
      grant'.any fun grant => grant.status == .active) :
    accessState viewer api grant request = accessState viewer api grant' request := by
  unfold accessState
  rw [h]

theorem any_active_iff {found : Option GrantRow}
    (h : ∀ grant, found = some grant → grant.status = .active) :
    (found.any fun grant => grant.status == .active) = found.isSome := by
  cases found with
  | none => rfl
  | some grant => exact beq_iff_eq.mpr (h grant rfl)

theorem isActiveGrant_status {apiId userId : ℕ} {grant : GrantRow}
    (h : isActiveGrant apiId userId grant = true) : grant.status = .active := by
  unfold isActiveGrant at h
  rw [Bool.and_eq_true, beq_iff_eq] at h
  exact h.2

theorem resolveReadAccess_active {grant : GrantRow}
    (h : (resolveReadAccess s viewer api).grant = some grant) : grant.status = .active := by
  unfold resolveReadAccess at h
  split at h
  · rename_i own hown
    cases h
    have hfound := List.find?_some hown
    rw [Bool.and_eq_true] at hfound
    exact isActiveGrant_status hfound.1
  · have hmem := mem_pageOf (List.mem_of_mem_head? h)
    exact isActiveGrant_status (List.mem_filter.mp hmem).2

/-- The badge of the list and the badge of the detail page rest on the same
grant or the lack of one. -/
theorem grant_any_eq (s : Store π) (viewer : UserRow) (api : ApiRow π) :
    ((lastUnder (·.apiId) (listActiveByUser s viewer.id) api.id).any
        fun grant => grant.status == .active) =
      (resolveReadAccess s viewer api).grant.any fun grant => grant.status == .active := by
  rw [any_active_iff fun grant h => resolveReadAccess_active h, any_active_iff, Bool.eq_iff_iff,
    grant_isSome_iff, ← mem_listActiveByUser]
  · unfold lastUnder
    simp [List.find?_isSome]
  · intro grant h
    have hmem := List.mem_reverse.mp (List.mem_of_find?_eq_some h)
    have hactive := (List.mem_filter.mp hmem).2
    rw [Bool.and_eq_true, beq_iff_eq, beq_iff_eq] at hactive
    exact hactive.2

/-- What the detail page shows of an API, and the list too. -/
def entryOf (s : Store π) (viewer : UserRow) (api : ApiRow π) : CatalogApi π :=
  catalogApi viewer api (findUser s api.ownerUserId) (resolveReadAccess s viewer api).grant
    (findLatestByApiAndUser s api.id viewer.id) s.gatewayUrl

/-- A page is the cut of the visible rows, entry by entry. -/
theorem list_items (toLowerCase : String → String) (filter : CatalogFilter)
    (options : ListOptions) :
    (list toLowerCase s viewer filter options).items =
      (((visibleRows toLowerCase s viewer filter).drop (clampOffset options.offset)).take
        (clampPageSize options.limit)).map (entryOf s viewer) := by
  have hfound : (listApis toLowerCase s filter (visibleTo s viewer) (clampPageSize options.limit)
      (clampOffset options.offset)).items =
        ((visibleRows toLowerCase s viewer filter).drop (clampOffset options.offset)).take
          (clampPageSize options.limit) := by
    unfold listApis visibleRows pageOf
    simp only [visibleTo_eq_canListApi]
  unfold list
  simp only [hfound]
  apply List.map_congr_left
  intro api hapi
  unfold entryOf catalogApi
  rw [owner_eq hapi, request_eq (List.mem_map_of_mem hapi),
    accessState_congr _ (grant_any_eq s viewer api)]

theorem list_total (toLowerCase : String → String) (filter : CatalogFilter)
    (options : ListOptions) :
    (list toLowerCase s viewer filter options).total =
      (visibleRows toLowerCase s viewer filter).length := by
  unfold list listApis visibleRows pageOf
  simp only [visibleTo_eq_canListApi, List.length_mergeSort]

/-! ## The detail page -/

theorem toNat_of_isSlugChar {c : Char} (h : isSlugChar c = true) :
    (97 ≤ c.toNat ∧ c.toNat ≤ 122) ∨ (48 ≤ c.toNat ∧ c.toNat ≤ 57) ∨ c.toNat = 45 := by
  unfold isSlugChar at h
  simp only [Bool.or_eq_true, Bool.and_eq_true, decide_eq_true_eq, beq_iff_eq, Char.le_def,
    UInt32.le_iff_toNat_le] at h
  rcases h with (⟨hlow, hhigh⟩ | ⟨hlow, hhigh⟩) | hdash
  · exact .inl ⟨hlow, hhigh⟩
  · exact .inr (.inl ⟨hlow, hhigh⟩)
  · rw [hdash]
    exact .inr (.inr rfl)

theorem toLower_of_isSlugChar {c : Char} (h : isSlugChar c = true) : c.toLower = c := by
  have hcode := toNat_of_isSlugChar h
  unfold Char.toLower
  apply dif_neg
  intro hletter
  have hlow : 65 ≤ c.toNat := UInt32.le_iff_toNat_le.mp hletter.1
  have hhigh : c.toNat ≤ 90 := UInt32.le_iff_toNat_le.mp hletter.2
  omega

theorem sqlLower_slug (slug : Slug) : sqlLower slug.val = slug.val := by
  unfold sqlLower
  have hchars : ∀ c ∈ slug.val.toList, c.toLower = c := fun c hc =>
    toLower_of_isSlugChar (List.all_eq_true.mp slug.property c hc)
  rw [List.map_congr_left hchars, List.map_id', String.ofList_toList]

theorem isWhiteSpace_of_isSlugChar {c : Char} (h : isSlugChar c = true) :
    isWhiteSpace c = false := by
  have hcode := toNat_of_isSlugChar h
  exact isWhiteSpace_of_visible (by omega) (by omega)

theorem trim_slug (slug : Slug) : trim slug.val = slug.val := by
  have hchars : ∀ c ∈ slug.val.toList, isWhiteSpace c = false := fun c hc =>
    isWhiteSpace_of_isSlugChar (List.all_eq_true.mp slug.property c hc)
  have hkept : ∀ cs : List Char, (∀ c ∈ cs, isWhiteSpace c = false) →
      cs.dropWhile isWhiteSpace = cs := by
    intro cs h
    cases cs with
    | nil => rfl
    | cons c cs => exact List.dropWhile_cons_of_neg (by simp [h c List.mem_cons_self])
  unfold trim
  rw [hkept _ hchars, hkept _ fun c hc => hchars c (List.mem_reverse.mp hc), List.reverse_reverse,
    String.ofList_toList]

/-- What the queries rely on of `toLowerCase`. -/
def LowersSlugs (toLowerCase : String → String) : Prop :=
  ∀ slug : Slug, toLowerCase slug.val = slug.val

section Slugs

variable {toLowerCase : String → String}

theorem findBySlug_self (hlower : LowersSlugs toLowerCase) (hapi : api ∈ s.apis) :
    findBySlug toLowerCase s api.slug.val = some api := by
  unfold findBySlug
  simp only [sqlLower_slug, trim_slug, hlower api.slug]
  cases hfound : s.apis.find? fun row => row.slug.val == api.slug.val with
  | none =>
    have hmiss := List.find?_eq_none.mp hfound api hapi
    exact absurd (beq_iff_eq.mpr rfl) hmiss
  | some found =>
    have hslug := List.find?_some hfound
    rw [beq_iff_eq] at hslug
    have hmem := List.mem_of_find?_eq_some hfound
    rw [List.inj_on_of_nodup_map s.slugs_nodup hmem hapi (Subtype.ext hslug)]

/-- The detail of an API the viewer may see is served under its slug. -/
theorem detail_of_canView (hlower : LowersSlugs toLowerCase) (hapi : api ∈ s.apis)
    (hview : canViewApi viewer api (resolveReadAccess s viewer api) = true) :
    detail toLowerCase s viewer api.slug.val =
      .ok { api := entryOf s viewer api
            spec := (findCurrentByApi s api.id).map SpecRow.summary
            myRequest := findLatestByApiAndUser s api.id viewer.id
            myGrant := (resolveReadAccess s viewer api).grant } := by
  have hviewable : viewableApi toLowerCase s viewer api.slug.val = .ok api := by
    unfold viewableApi
    rw [findBySlug_self hlower hapi]
    exact if_pos hview
  unfold detail
  rw [hviewable]
  rfl

end Slugs

theorem canViewApi_of_canListApi {access : ApiReadAccess} (h : canListApi viewer api access = true) :
    canViewApi viewer api access = true := by
  unfold canListApi at h
  unfold canViewApi
  rw [Bool.or_eq_true] at h ⊢
  rcases h with hinside | hopen
  · exact .inl hinside
  · rw [Bool.and_eq_true, beq_iff_eq, beq_iff_eq] at hopen
    exact .inr (by simp [hopen.1, hopen.2])

/-! ## The filter of the listings -/

theorem canViewApi_congr {access access' : ApiReadAccess}
    (hgrant : access.grant.isSome = access'.grant.isSome)
    (hviewer : access.isAuthorizedViewer = access'.isAuthorizedViewer) :
    canViewApi viewer api access = canViewApi viewer api access' := by
  unfold canViewApi isInsider
  rw [hgrant, hviewer]

theorem canViewApi_of_noStanding (h : canViewApi viewer api noStanding = true)
    (access : ApiReadAccess) : canViewApi viewer api access = true := by
  unfold canViewApi isInsider noStanding at h
  unfold canViewApi isInsider
  simp only [Option.isSome_none, Bool.or_false, Bool.or_eq_true] at h ⊢
  tauto

theorem standing_eq :
    canViewApi viewer api
        ⟨(listActiveByUser s viewer.id).find? fun grant => grant.apiId == api.id,
          (listApiIdsByUser s viewer.id).contains api.id⟩ =
      canViewApi viewer api (resolveReadAccess s viewer api) := by
  apply canViewApi_congr
  · rw [Bool.eq_iff_iff, grant_isSome_iff, ← mem_listActiveByUser]
    simp [List.find?_isSome]
  · rw [Bool.eq_iff_iff, isAuthorizedViewer_iff, ← mem_listApiIdsByUser]
    exact List.contains_iff_mem

theorem gated_or_canView :
    (!isGated viewer api || canViewApi viewer api (resolveReadAccess s viewer api)) =
      (api.visibility != .ofPrivate ||
        canViewApi viewer api (resolveReadAccess s viewer api)) := by
  unfold isGated
  cases hstanding : canViewApi viewer api noStanding with
  | false => simp [bne]
  | true =>
    rw [canViewApi_of_noStanding hstanding (resolveReadAccess s viewer api)]
    simp

/-- The filter keeps the APIs that are not private or that the account may
open. -/
theorem filterReadableApis_eq (apis : List (ApiRow π)) :
    filterReadableApis s viewer apis = apis.filter fun api => api.visibility != .ofPrivate ||
      canViewApi viewer api (resolveReadAccess s viewer api) := by
  unfold filterReadableApis
  split
  · rename_i hnone
    rw [List.isEmpty_iff, List.filter_eq_nil_iff] at hnone
    symm
    apply List.filter_eq_self.mpr
    intro api hapi
    rw [← gated_or_canView]
    simp [hnone api hapi]
  · apply List.filter_congr
    intro api _
    rw [standing_eq, gated_or_canView]

end FerrumNexus.Catalog
