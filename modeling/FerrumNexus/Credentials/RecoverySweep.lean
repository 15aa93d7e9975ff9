import FerrumNexus.Credentials.RecoveryProofs
import FerrumNexus.Credentials.MirrorRuns
import FerrumNexus.Sequences.Paging

/-!
# The recovery sweep is exhaustive

A pass over one status ends on an empty page, whose offset, the number of rows
the pass spared, is no smaller than the listing. The check after the pass finds
every spared row written no later than it was listed, so it was there at every
page in between. Where no newer row enters the listing and leaves it again within
the pass, the offset is no larger than the newer part of the listing, and that
comes first: no older row was listed at the last page. A row that is in neither
status there was revoked or gone, unless it moved back from retiring to active
between the two passes.
-/
namespace FerrumNexus.Credentials

open Saga Platform Portal Sequences

/-! ## What the writers may not do meanwhile -/

/-- The rows, as one read saw them, have this one in this status. -/
def ListedAt (status : CredentialStatus) (rows : List CredentialRecord) (id : ℕ) : Prop :=
  ∃ row ∈ rows, row.id = id ∧ row.status = status

/-- No newer row enters the listing of a status between two pages of a pass and leaves it again
between two later ones. -/
def Settles (cutoff : Option ℕ) (status : CredentialStatus) (pass : List (List CredentialRecord)) :
    Prop :=
  ∀ before between after, [before, between, after].Sublist pass → ∀ row ∈ between,
    row.status = status → spared cutoff row = true → ¬ ListedAt status before row.id →
      ListedAt status after row.id

/-- The row is retiring at the last page of the active rows, and active at that of the retiring. -/
def MovesBack (active retiring : List (List CredentialRecord)) (id : ℕ) : Prop :=
  ∃ before ∈ active.getLast?, ∃ after ∈ retiring.getLast?,
    ListedAt .retiring before id ∧ ListedAt .active after id

/-- The two passes of a sweep that cannot miss the row. -/
structure Reaches (cutoff : Option ℕ) (active retiring : List (List CredentialRecord)) (id : ℕ) :
    Prop where
  first : Settles cutoff .active active
  second : Settles cutoff .retiring retiring
  stays : ¬ MovesBack active retiring id

/-! ## Outside the keys -/

/-- Since `s₀` rows have only moved as they may. -/
structure Since (cutoff : Option ℕ) (s₀ s : World) : Prop where
  wellFormed : WellFormed s
  forward : Forward cutoff s₀ s

section Sweep

variable {slot : ℕ} {cutoff : Option ℕ} {c : ConsumerId} {s₀ s s' : World} {user : UserRecord}
  {status : CredentialStatus}

theorem Since.rely (h : Since cutoff s₀ s) (hr : Rely slot cutoff s s') : Since cutoff s₀ s' :=
  ⟨hr.wellFormed h.wellFormed, h.forward.trans hr.forward⟩

theorem WellFormed.since (h : WellFormed s) : Since cutoff s s :=
  ⟨h, Forward.refl cutoff s⟩

theorem Since.after (h : Since cutoff s₀ s) (h' : Since cutoff s s') : Since cutoff s₀ s' :=
  ⟨h'.wellFormed, h.forward.trans h'.forward⟩

theorem Since.of_rows (h : Since cutoff s₀ s) (hrows : s'.rows = s.rows)
    (hfresh : s'.fresh = s.fresh) : Since cutoff s₀ s' where
  wellFormed := by
    refine ⟨hrows ▸ h.wellFormed.idsNodup, ?_⟩
    rw [hrows, hfresh]
    exact h.wellFormed.idsFresh
  forward := h.forward.trans (Forward.of_rows hrows hfresh.ge)

theorem sweeps_acquire (h : Since cutoff s₀ s) (c : ConsumerId) :
    Sweeps slot cutoff (acquire slot (.consumer c))
      (fun _ s' => InSection slot cutoff c s₀ s') s := by
  refine (wpe_atomic _).mpr ?_
  intro s₁ hr o result s' hact
  have h₁ := h.rely hr
  cases o with
  | ok =>
    cases hheld : s₁.holders (.consumer c) with
    | some holder => simp [hheld] at hact
    | none =>
      simp only [hheld, Option.some.injEq, Prod.mk.injEq] at hact
      obtain ⟨rfl, rfl⟩ := hact
      have h₂ : Since cutoff s₀ { s₁ with
          holders := Function.update s₁.holders (.consumer c) (some slot) } := h₁.of_rows rfl rfl
      exact ⟨spares_of_rows rfl, h₂.wellFormed, h₂.forward, Function.update_self _ _ _⟩
  | refused st =>
    cases hact
    exact ⟨spares_of_rows rfl, trivial⟩
  | lost st =>
    cases hact
    exact ⟨spares_of_rows rfl, trivial⟩
  | down =>
    cases hact
    exact ⟨spares_of_rows rfl, trivial⟩

theorem sweeps_release (h : Since cutoff s₀ s) (key : Key) :
    Sweeps slot cutoff (release key) (fun _ s' => Since cutoff s₀ s') s := by
  refine (wpe_atomic _).mpr ?_
  intro s₁ hr o result s' hact
  simp only [Option.some.injEq, Prod.mk.injEq] at hact
  obtain ⟨rfl, rfl⟩ := hact
  exact ⟨spares_of_rows rfl, (h.rely hr).of_rows rfl rfl⟩

/-- A section under a consumer's key. -/
theorem sweeps_serializePerKey {α : Type} {p : CredentialService α} (h : Since cutoff s₀ s)
    (hp : ∀ s₁, InSection slot cutoff c s₀ s₁ →
      Sweeps slot cutoff p (fun _ s' => InSection slot cutoff c s₀ s') s₁) :
    Sweeps slot cutoff (serializePerKey slot (.consumer c) p)
      (fun _ s' => Since cutoff s₀ s') s := by
  refine Sweeps.bind (sweeps_acquire h c) fun _ s₁ h₁ => ?_
  refine Sweeps.bind (M := fun _ s' => InSection slot cutoff c s₀ s') ?_ fun a s₂ h₂ => ?_
  · refine (wpe_tryCatch _ _).mpr (wpe_mono (hp s₁ h₁) (fun _ _ hs => hs) ?_)
    intro error s₂ _
    refine Sweeps.bind (M := fun _ _ => True) ?_ fun _ _ _ => sweeps_throw error
    refine (wpe_atomic _).mpr ?_
    intro s₃ _ o result s' hact
    simp only [Option.some.injEq, Prod.mk.injEq] at hact
    obtain ⟨rfl, rfl⟩ := hact
    exact ⟨spares_of_rows rfl, trivial⟩
  · exact Sweeps.bind (sweeps_release ⟨h₂.wellFormed, h₂.forward⟩ _) fun _ _ hs => hs

/-! ## The listing of a status -/

variable {a b row row' : CredentialRecord} {sweep : Sweep}

theorem mem_listByStatus :
    row ∈ listByStatus s user.id status ↔
      row ∈ s.rows ∧ row.userId = user.id ∧ row.status = status := by
  simp only [listByStatus, List.mem_insertionSort, List.mem_filter, Bool.and_eq_true, beq_iff_eq]

/-- The rows of a listing that the sweep spares. -/
def newerRows (cutoff : Option ℕ) (user : UserRecord) (status : CredentialStatus) (s : World) :
    List CredentialRecord :=
  (listByStatus s user.id status).filter fun row => spared cutoff row

theorem mem_newerRows : row ∈ newerRows cutoff user status s ↔
    row ∈ s.rows ∧ row.userId = user.id ∧ row.status = status ∧ spared cutoff row = true := by
  rw [newerRows, List.mem_filter, mem_listByStatus]
  tauto

theorem newerFirst_iff : newerFirst a b = true ↔
    b.createdAt < a.createdAt ∨ (a.createdAt = b.createdAt ∧ b.id ≤ a.id) := by
  simp [newerFirst]

instance : Std.Total fun a b : CredentialRecord => newerFirst a b = true where
  total a b := by
    simp only [newerFirst_iff]
    omega

instance : IsTrans CredentialRecord fun a b => newerFirst a b = true where
  trans a b c hab hbc := by
    simp only [newerFirst_iff] at *
    omega

theorem listByStatus_sorted (s : World) (userId : ℕ) (status : CredentialStatus) :
    (listByStatus s userId status).Pairwise fun a b => newerFirst a b = true :=
  List.pairwise_insertionSort _ _

/-- What a page spares is a page of the rows that are spared. -/
theorem spared_listPage (cutoff : Option ℕ) (user : UserRecord) (status : CredentialStatus)
    (s : World) (offset : ℕ) :
    (listPage s user.id status offset).filter (fun row => spared cutoff row) =
      ((newerRows cutoff user status s).drop offset).take MAX_PAGE_SIZE := by
  refine filter_page ((listByStatus_sorted s user.id status).imp ?_) offset MAX_PAGE_SIZE
  intro a b hab hspared
  cases cutoff with
  | none => simp [spared] at hspared
  | some cutoff =>
    simp only [spared, decide_eq_true_eq] at hspared ⊢
    have horder := newerFirst_iff.mp hab
    omega

/-- Where a row stands in a listing, whatever its status. -/
def place (row : CredentialRecord) : ℕ × ℕ := (row.createdAt, row.id)

/-- `created_at DESC, id DESC` of places that differ. -/
def Newer (a b : ℕ × ℕ) : Prop := b.1 < a.1 ∨ (a.1 = b.1 ∧ b.2 < a.2)

instance : Std.Irrefl Newer where
  irrefl a := by
    unfold Newer
    omega

instance : IsTrans (ℕ × ℕ) Newer where
  trans a b c hab hbc := by
    unfold Newer at *
    omega

theorem newerRows_sorted (h : WellFormed s) :
    ((newerRows cutoff user status s).map place).Pairwise Newer := by
  have hids : (listByStatus s user.id status).Pairwise fun a b => a.id ≠ b.id := by
    have hnodup : ((s.rows.filter fun row => row.userId == user.id && row.status == status).map
        (·.id)).Nodup := h.idsNodup.sublist (List.filter_sublist.map _)
    have hperm := (List.perm_insertionSort (newerFirst · ·)
      (s.rows.filter fun row => row.userId == user.id && row.status == status)).map (·.id)
    exact List.pairwise_map.mp (hperm.nodup_iff.mpr hnodup)
  rw [List.pairwise_map]
  refine (((listByStatus_sorted s user.id status).and hids).imp ?_).filter _
  rintro a b ⟨horder, hne⟩
  rw [newerFirst_iff] at horder
  simp only [Newer, place]
  omega

/-- A row that is found again under its id. -/
theorem Forward.moved_of_mem {a b : World} (h : Forward cutoff a b) (ha : WellFormed a)
    (hb : WellFormed b) (hrow : row ∈ a.rows) (hrow' : row' ∈ b.rows) (hid : row'.id = row.id) :
    Moved cutoff row row' := by
  have hfound := hb.find hrow'
  rw [hid] at hfound
  obtain ⟨old, hold, hmoved⟩ := h.moved row.id (ha.idsFresh row hrow) row' hfound
  rw [ha.find hrow, Option.some.injEq] at hold
  rwa [hold]

theorem SameRow.place_eq (h : SameRow a b) (hid : b.id = a.id) :
    place b = place a := by
  simp only [place, h.2.1, hid]

/-! ## The pages of a pass -/

/-- A page that was read: the world it saw, and its rows that were spared. -/
abbrev PageRead := World × List CredentialRecord

def newerPlaces (cutoff : Option ℕ) (user : UserRecord) (status : CredentialStatus)
    (read : PageRead) : List (ℕ × ℕ) :=
  (newerRows cutoff user status read.1).map place

def pagePlaces (read : PageRead) : List (ℕ × ℕ) := read.2.map place

/-- What a pass has seen and spared goes back to these pages. -/
structure Traced (cutoff : Option ℕ) (user : UserRecord) (status : CredentialStatus)
    (reads : List PageRead) (seen : List (List CredentialRecord)) (skipped : List CredentialRecord)
    (s : World) : Prop where
  seen_eq : seen = reads.map fun read => accountRows read.1 user.id
  skipped_eq : skipped = reads.flatMap (·.2)
  paged : Paged (newerPlaces cutoff user status) pagePlaces MAX_PAGE_SIZE reads skipped.length
  wellFormed : ∀ read ∈ reads, WellFormed read.1
  listed : ∀ read ∈ reads, ∀ row ∈ read.2, row ∈ newerRows cutoff user status read.1
  ordered : (reads.map Prod.fst ++ [s]).Pairwise (Forward cutoff)

section Pass

variable {reads : List PageRead} {seen : List (List CredentialRecord)}
  {skipped : List CredentialRecord}

theorem Traced.start : Traced cutoff user status [] [] [] s :=
  ⟨rfl, rfl, .start, by simp, by simp, by simp⟩

theorem Traced.forward_of_mem (h : Traced cutoff user status reads seen skipped s)
    {read : PageRead} (hread : read ∈ reads) : Forward cutoff read.1 s :=
  (List.pairwise_append.mp h.ordered).2.2 _ (List.mem_map_of_mem hread) s
    (List.mem_singleton_self s)

theorem Traced.since (h : Traced cutoff user status reads seen skipped s)
    (hf : Since cutoff s s') : Traced cutoff user status reads seen skipped s' := by
  refine ⟨h.seen_eq, h.skipped_eq, h.paged, h.wellFormed, h.listed, ?_⟩
  refine List.pairwise_append.mpr ⟨(List.pairwise_append.mp h.ordered).1,
    List.pairwise_singleton _ _, fun world hworld last hlast => ?_⟩
  obtain ⟨read, hread, rfl⟩ := List.mem_map.mp hworld
  rw [List.mem_singleton.mp hlast]
  exact (h.forward_of_mem hread).trans hf.forward

/-- One page more, and what the sweep does with its rows. -/
theorem Traced.read (h : Traced cutoff user status reads seen skipped s) (hwf : WellFormed s)
    {page : List CredentialRecord} (hpage : page =
      ((newerRows cutoff user status s).drop skipped.length).take MAX_PAGE_SIZE)
    (hf : Since cutoff s s') : Traced cutoff user status (reads ++ [(s, page)])
      (seen ++ [accountRows s user.id]) (skipped ++ page) s' := by
  have hread : pagePlaces (s, page) =
      ((newerPlaces cutoff user status (s, page)).drop skipped.length).take MAX_PAGE_SIZE := by
    simp only [pagePlaces, newerPlaces, hpage, List.map_take, List.map_drop]
  have hpaged := h.paged.read (s, page) hread
  constructor
  · rw [h.seen_eq]
    simp
  · rw [h.skipped_eq]
    simp
  · simpa [pagePlaces] using hpaged
  · intro read hmem
    rcases List.mem_append.mp hmem with hold | hnew
    · exact h.wellFormed read hold
    · rw [List.mem_singleton.mp hnew]
      exact hwf
  · intro read hmem row hrow
    rcases List.mem_append.mp hmem with hold | hnew
    · exact h.listed read hold row hrow
    · obtain rfl := List.mem_singleton.mp hnew
      rw [hpage] at hrow
      exact List.mem_of_mem_drop (List.mem_of_mem_take hrow)
  · rw [List.map_append]
    refine List.pairwise_append.mpr ⟨h.ordered, List.pairwise_singleton _ _,
      fun world hworld last hlast => ?_⟩
    rw [List.mem_singleton.mp hlast]
    rcases List.mem_append.mp hworld with hold | hnew
    · obtain ⟨read, hread, rfl⟩ := List.mem_map.mp hold
      exact (h.forward_of_mem hread).trans hf.forward
    · obtain rfl : world = s := by simpa using hnew
      exact hf.forward

/-! ## What a pass leaves behind -/

/-- A row found later in this status, written no later than it was listed. -/
def Unmoved (cutoff : Option ℕ) (status : CredentialStatus) (row : CredentialRecord) (s : World) :
    Prop :=
  ∃ s' current, Since cutoff s s' ∧ findById s' row.id = some current ∧
    current.status = status ∧ current.updatedAt = row.updatedAt

/-- Such a row was in the listing all the time. -/
theorem place_mem_of_unmoved {a b : World} {row : CredentialRecord} (ha : WellFormed a)
    (hrow : row ∈ newerRows cutoff user status a) (hab : Forward cutoff a b)
    (hb : WellFormed b) (hbs : Forward cutoff b s) (hlive : status ≠ .revoked)
    (hunmoved : Unmoved cutoff status row s) :
    place row ∈ (newerRows cutoff user status b).map place := by
  obtain ⟨hmem, howned, hstatus, hspared⟩ := mem_newerRows.mp hrow
  obtain ⟨s', current, hf, hfound, hcurrent, htime⟩ := hunmoved
  have hfresh := lt_of_lt_of_le (ha.idsFresh row hmem) hab.fresh
  obtain ⟨between, hbetween, hlater⟩ := (hbs.trans hf.forward).moved row.id hfresh current hfound
  obtain ⟨hbmem, hbid⟩ := findById_mem hbetween
  have hearlier : Moved cutoff row between := hab.moved_of_mem ha hb hmem hbmem hbid
  have hspared' : spared cutoff between = true := (spared_congr hearlier.same).trans hspared
  have hkept : between.status = status := by
    rcases hlater.written hspared' with hrevoked | hlt | ⟨heq, hsame⟩
    · exact absurd (hcurrent.symm.trans hrevoked) hlive
    · rcases hearlier.written hspared with hrevoked | hlt' | ⟨heq, -⟩
      · exact absurd (hcurrent.symm.trans (hlater.revoked hrevoked)) hlive
      · omega
      · omega
    · exact hsame.symm.trans hcurrent
  have hplace := hearlier.same.place_eq hbid
  rw [← hplace]
  exact List.mem_map_of_mem (mem_newerRows.mpr
    ⟨hbmem, hearlier.same.1.trans howned, hkept, hspared'⟩)

/-- Every row of the account in this status was issued at or after the cutoff. -/
def Cleared (cutoff : Option ℕ) (user : UserRecord) (status : CredentialStatus) (s : World) :
    Prop :=
  ∀ row ∈ s.rows, row.userId = user.id → row.status = status → spared cutoff row = true

/-- A row that came into the listing between two pages is still there later. -/
theorem Settles.entered {pass : List (List CredentialRecord)} (h : Settles cutoff status pass)
    {a b w : World} (hsublist : [accountRows a user.id, accountRows b user.id,
      accountRows w user.id].Sublist pass) (ha : WellFormed a) (hb : WellFormed b)
    (hw : WellFormed w) (hab : Forward cutoff a b) (hbw : Forward cutoff b w) {x : ℕ × ℕ}
    (hx : x ∈ (newerRows cutoff user status b).map place)
    (hnew : x ∉ (newerRows cutoff user status a).map place) :
    x ∈ (newerRows cutoff user status w).map place := by
  obtain ⟨row, hrow, rfl⟩ := List.mem_map.mp hx
  obtain ⟨hmem, howned, hstatus, hspared⟩ := mem_newerRows.mp hrow
  have habsent : ¬ ListedAt status (accountRows a user.id) row.id := by
    rintro ⟨old, hold, hid, hst⟩
    obtain ⟨holdmem, holdowned⟩ := List.mem_filter.mp hold
    have hsame := (hab.moved_of_mem ha hb holdmem hmem hid.symm).same
    apply hnew
    rw [hsame.place_eq hid.symm]
    exact List.mem_map_of_mem (mem_newerRows.mpr
      ⟨holdmem, beq_iff_eq.mp holdowned, hst, (spared_congr hsame).symm.trans hspared⟩)
  have hthere : row ∈ accountRows b user.id :=
    List.mem_filter.mpr ⟨hmem, beq_iff_eq.mpr howned⟩
  obtain ⟨later, hlater, hid, hst⟩ := h _ _ _ hsublist row hthere hstatus hspared habsent
  obtain ⟨hlatermem, hlaterowned⟩ := List.mem_filter.mp hlater
  have hsame := (hbw.moved_of_mem hb hw hmem hlatermem hid).same
  rw [← hsame.place_eq hid]
  exact List.mem_map_of_mem (mem_newerRows.mpr
    ⟨hlatermem, beq_iff_eq.mp hlaterowned, hst, (spared_congr hsame).trans hspared⟩)

/-- The reads of a pass, its last one among them, are in order. -/
theorem Traced.orderly (h : Traced cutoff user status reads seen skipped s) (hwf : WellFormed s)
    (hlive : status ≠ .revoked) (hunmoved : ∀ row ∈ skipped, Unmoved cutoff status row s)
    (hsettles : Settles cutoff status (seen ++ [accountRows s user.id])) :
    Orderly (newerPlaces cutoff user status) pagePlaces Newer (reads ++ [(s, [])]) := by
  have hordered : ((reads ++ [(s, ([] : List CredentialRecord))]).map Prod.fst).Pairwise
      (Forward cutoff) := by
    rw [List.map_append]
    exact h.ordered
  have hall : ∀ read ∈ reads ++ [(s, ([] : List CredentialRecord))],
      WellFormed read.1 ∧ Forward cutoff read.1 s := by
    intro read hread
    rcases List.mem_append.mp hread with hold | hlast
    · exact ⟨h.wellFormed read hold, h.forward_of_mem hold⟩
    · rw [List.mem_singleton.mp hlast]
      exact ⟨hwf, Forward.refl cutoff s⟩
  intro earlier read later heq
  obtain ⟨hread, hto⟩ := hall read (by rw [heq]; simp)
  have hearlier : ∀ known ∈ earlier, Forward cutoff known.1 read.1 := by
    intro known hknown
    rw [heq, List.map_append, List.map_cons] at hordered
    exact (List.pairwise_append.mp hordered).2.2 _ (List.mem_map_of_mem hknown) _
      List.mem_cons_self
  have hmem : ∀ known ∈ earlier, known ∈ reads ++ [(s, [])] := by
    intro known hknown
    rw [heq]
    exact List.mem_append_left _ hknown
  refine ⟨newerRows_sorted hread, ⟨fun known hknown x hx => ?_, fun a b hpair x hx hnew => ?_⟩⟩
  · obtain ⟨row, hrow, rfl⟩ := List.mem_map.mp hx
    rcases List.mem_append.mp (hmem known hknown) with hold | hlast
    · have hskipped : row ∈ skipped := by
        rw [h.skipped_eq]
        exact List.mem_flatMap.mpr ⟨known, hold, hrow⟩
      exact place_mem_of_unmoved (hall known (hmem known hknown)).1 (h.listed known hold row hrow)
        (hearlier known hknown) hread hto hlive (hunmoved row hskipped)
    · rw [List.mem_singleton.mp hlast] at hrow
      exact absurd hrow List.not_mem_nil
  · have hthree : [a, b, read].Sublist (reads ++ [(s, [])]) := by
      rw [heq]
      exact List.Sublist.append hpair (List.singleton_sublist.mpr List.mem_cons_self)
    have hsublist := hthree.map fun read => accountRows read.1 user.id
    rw [List.map_append, ← h.seen_eq] at hsublist
    have hforward := hordered.sublist (hthree.map Prod.fst)
    have ha := hpair.subset List.mem_cons_self
    have hb := hpair.subset (List.mem_cons_of_mem a List.mem_cons_self)
    exact hsettles.entered hsublist (hall a (hmem a ha)).1 (hall b (hmem b hb)).1 hread
      ((List.pairwise_cons.mp hforward).1 _ List.mem_cons_self) (hearlier b hb) hx hnew

/-- An offset no larger than the newer rows of a listing and no smaller than the listing. -/
theorem Traced.cleared (h : Traced cutoff user status reads seen skipped s) (hwf : WellFormed s)
    (hlive : status ≠ .revoked) (hunmoved : ∀ row ∈ skipped, Unmoved cutoff status row s)
    (hlength : (listByStatus s user.id status).length ≤ skipped.length)
    (hsettles : Settles cutoff status (seen ++ [accountRows s user.id])) :
    Cleared cutoff user status s := by
  have hoffset := h.paged.le_length (h.orderly hwf hlive hunmoved hsettles)
  rw [newerPlaces, List.length_map] at hoffset
  have hall := List.length_filter_eq_length_iff.mp
    (le_antisymm (List.length_filter_le _ _) (hlength.trans hoffset))
  intro row hrow howned hstatus
  exact hall row (mem_listByStatus.mpr ⟨hrow, howned, hstatus⟩)

end Pass

/-! ## The calls of a pass -/

theorem sweeps_sweepRow (h : WellFormed s) (hrow : Tracked row s) :
    Sweeps slot cutoff (sweepRow slot user cutoff sweep row)
      (fun result s' => Since cutoff s s' ∧ result.passes = sweep.passes ∧
        result.seen = sweep.seen ∧
        result.skipped = sweep.skipped ++ [row].filter fun row => spared cutoff row) s := by
  rw [sweepRow]
  split
  · rename_i hspared
    exact ⟨h.since, rfl, rfl, by simp [hspared]⟩
  · rename_i hspared
    rw [Bool.not_eq_true] at hspared
    refine Sweeps.bind (sweeps_serializePerKey h.since fun s₁ h₁ =>
      sweeps_revokeCredentialRow h₁ rfl (hrow.forward h₁.forward) hspared user) ?_
    intro removed s₁ h₁
    exact ⟨h₁, rfl, rfl, by simp [hspared]⟩

theorem sweeps_sweepRows {rows : List CredentialRecord} (h : WellFormed s)
    (hrows : ∀ row ∈ rows, Tracked row s) :
    Sweeps slot cutoff (sweepRows slot user cutoff rows sweep)
      (fun result s' => Since cutoff s s' ∧ result.passes = sweep.passes ∧
        result.seen = sweep.seen ∧
        result.skipped = sweep.skipped ++ rows.filter fun row => spared cutoff row) s := by
  induction rows generalizing s sweep with
  | nil => exact ⟨h.since, rfl, rfl, by simp⟩
  | cons row rows ih =>
    refine Sweeps.bind (sweeps_sweepRow h (hrows row List.mem_cons_self)) ?_
    rintro sweep₁ s₁ ⟨h₁, hpasses, hseen, hskipped⟩
    refine Sweeps.mono (ih h₁.wellFormed fun row' hrow' =>
      (hrows row' (List.mem_cons_of_mem _ hrow')).forward h₁.forward) ?_
    rintro sweep₂ s₂ ⟨h₂, hpasses₂, hseen₂, hskipped₂⟩
    refine ⟨h₁.after h₂, hpasses₂.trans hpasses, hseen₂.trans hseen, ?_⟩
    rw [hskipped₂, hskipped, List.append_assoc, ← List.filter_append, List.singleton_append]

/-- A pass ends where the rows it spared are at least as many as are listed. -/
theorem sweeps_sweepPages {reads : List PageRead} (fuel : ℕ) (hwf : WellFormed s)
    (h : Traced cutoff user status reads sweep.seen sweep.skipped s) :
    Sweeps slot cutoff (sweepPages slot user cutoff status fuel sweep)
      (fun result s' => Since cutoff s s' ∧ result.passes = sweep.passes ∧
        (listByStatus s' user.id status).length ≤ result.skipped.length ∧
        ∃ reads seen, Traced cutoff user status reads seen result.skipped s' ∧
          result.seen = seen ++ [accountRows s' user.id]) s := by
  induction fuel generalizing s sweep reads with
  | zero =>
    refine (wpe_atomic _).mpr ?_
    intro s₁ hr o result s' hact
    cases hact
  | succ fuel ih =>
    refine Sweeps.bind (sweeps_storeRead _) ?_
    rintro page s₁ ⟨hr, rfl⟩
    have h₁ := hwf.since.rely hr
    have htraced := h.since h₁
    dsimp only
    split
    · rename_i hempty
      refine ⟨h₁, rfl, ?_, reads, sweep.seen, htraced, rfl⟩
      have htake : (listPage s₁ user.id status sweep.skipped.length).length = 0 := by
        rw [List.length_eq_zero_iff]
        exact List.isEmpty_iff.mp hempty
      rw [listPage, List.length_take, List.length_drop, MAX_PAGE_SIZE] at htake
      simp only
      omega
    · have hpage : ∀ row ∈ listPage s₁ user.id status sweep.skipped.length, Tracked row s₁ := by
        intro row hrow
        have hlisted := List.mem_of_mem_drop (List.mem_of_mem_take hrow)
        exact h₁.wellFormed.tracked (mem_listByStatus.mp hlisted).1
      refine Sweeps.bind (sweeps_sweepRows h₁.wellFormed hpage) ?_
      rintro sweep₂ s₂ ⟨h₂, hpasses, hseen, hskipped⟩
      have hread := htraced.read h₁.wellFormed rfl h₂
      have hsaw : sweep₂.seen = sweep.seen ++ [accountRows s₁ user.id] := hseen
      rw [← spared_listPage, ← hskipped, ← hsaw] at hread
      refine Sweeps.mono (ih h₂.wellFormed hread) ?_
      rintro sweep₃ s₃ ⟨h₃, hpasses₃, hlast⟩
      exact ⟨h₁.after (h₂.after h₃), hpasses₃.trans hpasses, hlast⟩

theorem sweeps_unmoved {rows : List CredentialRecord} (h : Since cutoff s₀ s) :
    Sweeps slot cutoff (unmoved status rows) (fun still s' => Since cutoff s₀ s' ∧
      (still = true → ∀ row ∈ rows, Unmoved cutoff status row s₀)) s := by
  induction rows generalizing s with
  | nil => exact ⟨h, by simp⟩
  | cons row rows ih =>
    refine Sweeps.bind (sweeps_storeRead _) ?_
    rintro found s₁ ⟨hr, rfl⟩
    have h₁ := h.rely hr
    cases hfound : findById s₁ row.id with
    | none => exact ⟨h₁, by simp⟩
    | some current =>
      dsimp only
      split
      · exact ⟨h₁, by simp⟩
      · rename_i hsame
        rw [not_or, not_not, not_not] at hsame
        refine Sweeps.mono (ih h₁) ?_
        rintro still s₂ ⟨h₂, hstill⟩
        refine ⟨h₂, fun htrue row' hrow' => ?_⟩
        rcases List.mem_cons.mp hrow' with rfl | hrow'
        · exact ⟨s₁, current, h₁, hfound, hsame⟩
        · exact hstill htrue row' hrow'

/-- The pass that is completed, and the world of its last page. -/
theorem sweeps_sweepStatus (fuel rounds : ℕ) (hlive : status ≠ .revoked) (h : WellFormed s) :
    Sweeps slot cutoff (sweepStatus slot user cutoff status fuel rounds sweep)
      (fun result s' => ∃ pass s₁, result.passes = sweep.passes ++ [pass] ∧
        pass.getLast? = some (accountRows s₁ user.id) ∧ Since cutoff s s₁ ∧ Since cutoff s₁ s' ∧
        (Settles cutoff status pass → Cleared cutoff user status s₁)) s := by
  induction rounds generalizing s sweep with
  | zero => exact sweeps_throw _
  | succ rounds ih =>
    refine Sweeps.bind (sweeps_sweepPages fuel h Traced.start) ?_
    rintro sweep₁ s₁ ⟨h₁, hpasses, hlength, reads, seen, htraced, hseen⟩
    refine Sweeps.bind (sweeps_unmoved h₁.wellFormed.since) ?_
    rintro still s₂ ⟨h₂, hstill⟩
    split
    · rename_i htrue
      refine ⟨sweep₁.seen, s₁, by rw [hpasses], by rw [hseen]; simp, h₁, h₂, fun hsettles => ?_⟩
      rw [hseen] at hsettles
      exact htraced.cleared h₁.wellFormed hlive (hstill htrue) hlength hsettles
    · refine Sweeps.mono (ih h₂.wellFormed) ?_
      rintro sweep₃ s₃ ⟨pass, s₄, hpasses₃, hlast, h₄, h₃, hcleared⟩
      exact ⟨pass, s₄, by rw [hpasses₃, hpasses], hlast, h₁.after (h₂.after h₄), h₃, hcleared⟩

/-- Revoked, or no longer there. -/
def Ended (s : World) (id : ℕ) : Prop := ∀ row, findById s id = some row → row.status = .revoked

theorem Ended.since {id : ℕ} (h : Ended s id) (hid : id < s.fresh) (hf : Since cutoff s s') :
    Ended s' id := by
  intro row' hrow'
  obtain ⟨row, hrow, hmoved⟩ := hf.forward.moved id hid row' hrow'
  exact hmoved.revoked (h row hrow)

/-- A row that was older, as any later world finds it. -/
theorem Since.older (h : Since cutoff s₀ s) (hwf : WellFormed s₀) (hrow : row ∈ s₀.rows)
    (howned : row.userId = user.id) (hspared : spared cutoff row = false)
    (hrow' : findById s row.id = some row') :
    row' ∈ accountRows s user.id ∧ row'.id = row.id ∧ spared cutoff row' = false := by
  obtain ⟨hmem, hid⟩ := findById_mem hrow'
  have hsame := (h.forward.moved_of_mem hwf h.wellFormed hrow hmem hid).same
  exact ⟨List.mem_filter.mpr ⟨hmem, beq_iff_eq.mpr (hsame.1.trans howned)⟩, hid,
    (spared_congr hsame).trans hspared⟩

/-- A row neither active at the last page of the active rows nor retiring at that of the retiring
ones, and not back from the one status in the other, has ended. -/
theorem ended_of_cleared {active retiring : List (List CredentialRecord)} {s₁ s₃ : World}
    (hwf : WellFormed s₀) (h₁ : Since cutoff s₀ s₁) (h₃ : Since cutoff s₁ s₃)
    (hlast₁ : active.getLast? = some (accountRows s₁ user.id))
    (hlast₃ : retiring.getLast? = some (accountRows s₃ user.id))
    (hactive : Cleared cutoff user .active s₁) (hretiring : Cleared cutoff user .retiring s₃)
    (hrow : row ∈ s₀.rows) (howned : row.userId = user.id) (hspared : spared cutoff row = false)
    (hstays : ¬ MovesBack active retiring row.id) :
    Ended s₃ row.id := by
  intro row₃ hrow₃
  have hfresh := lt_of_lt_of_le (hwf.idsFresh row hrow) h₁.forward.fresh
  obtain ⟨hmem₃, hid₃, hspared₃⟩ := (h₁.after h₃).older hwf hrow howned hspared hrow₃
  obtain ⟨row₁, hrow₁, hmoved⟩ := h₃.forward.moved row.id hfresh row₃ hrow₃
  obtain ⟨hmem₁, hid₁, hspared₁⟩ := h₁.older hwf hrow howned hspared hrow₁
  have hnot {st : CredentialStatus} {w : World} {found : CredentialRecord}
      (hcleared : Cleared cutoff user st w) (hfound : found ∈ accountRows w user.id)
      (hunspared : spared cutoff found = false) : found.status ≠ st := by
    intro hst
    obtain ⟨hmem, howner⟩ := List.mem_filter.mp hfound
    have hnewer := hcleared found hmem (beq_iff_eq.mp howner) hst
    rw [hunspared] at hnewer
    cases hnewer
  cases hst₃ : row₃.status with
  | revoked => rfl
  | retiring => exact absurd hst₃ (hnot hretiring hmem₃ hspared₃)
  | active =>
    exfalso
    cases hst₁ : row₁.status with
    | active => exact hnot hactive hmem₁ hspared₁ hst₁
    | retiring =>
      exact hstays ⟨_, hlast₁, _, hlast₃, ⟨row₁, hmem₁, hid₁, hst₁⟩, ⟨row₃, hmem₃, hid₃, hst₃⟩⟩
    | revoked =>
      rw [hmoved.revoked hst₁] at hst₃
      cases hst₃

theorem sweeps_sweepForAccountRecovery (fuel : ℕ) (hwf : WellFormed s₀) (h : Since cutoff s₀ s) :
    Sweeps slot cutoff (sweepForAccountRecovery slot user cutoff fuel sweep)
      (fun result s' => Since cutoff s s' ∧ ∃ active retiring,
        result.passes = sweep.passes ++ [active, retiring] ∧
        ∀ row ∈ s₀.rows, row.userId = user.id → spared cutoff row = false →
          Reaches cutoff active retiring row.id → Ended s' row.id) s := by
  refine Sweeps.bind (sweeps_sweepStatus fuel _ (by decide) h.wellFormed) ?_
  rintro sweep₁ s₂ ⟨active, s₁, hpasses₁, hlast₁, h₁, h₂, hactive⟩
  refine Sweeps.mono (sweeps_sweepStatus fuel _ (by decide) h₂.wellFormed) ?_
  rintro sweep₂ s₄ ⟨retiring, s₃, hpasses₂, hlast₃, h₃, h₄, hretiring⟩
  have h₀₁ := h.after h₁
  have h₁₃ := h₂.after h₃
  refine ⟨(h₁.after h₁₃).after h₄, active, retiring, by rw [hpasses₂, hpasses₁]; simp, ?_⟩
  intro row hrow howned hspared hreaches
  have hended := ended_of_cleared hwf h₀₁ h₁₃ hlast₁ hlast₃ (hactive hreaches.first)
    (hretiring hreaches.second) hrow howned hspared hreaches.stays
  exact hended.since (lt_of_lt_of_le (hwf.idsFresh row hrow) (h₀₁.after h₁₃).forward.fresh) h₄

theorem sweeps_listConsumers (userId : ℕ) (fuel : ℕ) {rows : List ConsumerRecord}
    (h : Since cutoff s₀ s) :
    Sweeps slot cutoff (listConsumers userId fuel rows) (fun _ s' => Since cutoff s₀ s') s := by
  induction fuel generalizing s rows with
  | zero =>
    refine (wpe_atomic _).mpr ?_
    intro s₁ hr o result s' hact
    cases hact
  | succ fuel ih =>
    refine Sweeps.bind (sweeps_storeRead _) ?_
    rintro page s₁ ⟨hr, -⟩
    split
    · exact h.rely hr
    · exact ih (h.rely hr)

theorem sweeps_waitOut (consumerIds : List ConsumerId) (h : Since cutoff s₀ s) :
    Sweeps slot cutoff (waitOut slot consumerIds) (fun _ s' => Since cutoff s₀ s') s := by
  induction consumerIds generalizing s with
  | nil => exact h
  | cons consumerId consumerIds ih =>
    exact Sweeps.bind (sweeps_serializePerKey h fun _ h₁ => h₁) fun _ _ h₁ => ih h₁

/-! ## The whole sweep -/

/-- When a recovery returns, every older live row that one of its two sweeps reaches is revoked or
gone. And the sweep revokes no newer row that was not already retired. -/
theorem recovery_sweep_exhaustive (slot : ℕ) (user : UserRecord) (cutoff : Option ℕ) (fuel : ℕ)
    (s₀ : World) (hwf : WellFormed s₀) :
    wpe (Rely slot cutoff) (Spares cutoff) (revokeForAccountRecovery slot user cutoff fuel)
      (fun report s => ∃ active retiring active' retiring',
        report.passes = [active, retiring, active', retiring'] ∧
        ∀ row ∈ s₀.rows, row.userId = user.id → row.status.isLive = true →
          spared cutoff row = false →
          (Reaches cutoff active retiring row.id ∨ Reaches cutoff active' retiring' row.id) →
            ∀ row', findById s row.id = some row' → row'.status = .revoked)
      (fun _ _ => True) s₀ := by
  refine Sweeps.bind (sweeps_sweepForAccountRecovery fuel hwf hwf.since) ?_
  rintro first s₁ ⟨h₁, active, retiring, hpasses, hfirst⟩
  refine Sweeps.bind (sweeps_listConsumers user.id fuel h₁.wellFormed.since) ?_
  intro consumers s₂ h₂
  refine Sweeps.bind (sweeps_storeRead _) ?_
  rintro identities s₃ ⟨hr₃, -⟩
  refine Sweeps.bind (sweeps_waitOut _ (h₂.rely hr₃)) fun _ s₄ h₄ => ?_
  refine Sweeps.mono (sweeps_sweepForAccountRecovery fuel hwf (h₁.after h₄)) ?_
  rintro report s₅ ⟨h₅, active', retiring', hpasses₅, hsecond⟩
  refine ⟨active, retiring, active', retiring', by rw [hpasses₅, hpasses]; rfl, ?_⟩
  intro row hrow howned _ hspared hreaches
  rcases hreaches with hreaches | hreaches
  · -- what the first sweep has ended stays so through the second
    have hfresh := lt_of_lt_of_le (hwf.idsFresh row hrow) h₁.forward.fresh
    exact (hfirst row hrow howned hspared hreaches).since hfresh (h₄.after h₅)
  · exact hsecond row hrow howned hspared hreaches

end Sweep

/-- An older credential, and a newer one whose revocation reached the gateway
but was neither acknowledged nor readable afterwards. -/
def lostRevocationRun : List (MirrorOp × List Outcome) :=
  [(issueOwn .keyauth, List.replicate 20 .ok), (.tick 5, [.ok]),
    (issueOwn .keyauth, List.replicate 20 .ok),
    (.revoke owner 4 false, List.replicate 5 .ok ++ [.lost none, .refused none])]

instance decidableWellFormed (s : World) : Decidable (WellFormed s) :=
  decidable_of_iff ((s.rows.map (·.id)).Nodup ∧ ∀ row ∈ s.rows, row.id < s.fresh)
    ⟨fun h => ⟨h.1, h.2⟩, fun h => ⟨h.idsNodup, h.idsFresh⟩⟩

theorem recovery_sweep_exhaustive_lostRevocationRun :
    ∃ s₀, MirrorReachable 4 ownConsumer .keyauth s₀ none ∧ WellFormed s₀ ∧
      (∃ row ∈ s₀.rows, row.userId = owner.id ∧ row.status.isLive = true ∧
        spared (some 5) row = false) ∧
      wpe (Rely 0 (some 5)) (Spares (some 5)) (revokeForAccountRecovery 0 owner (some 5) 2)
        (fun report s => ∃ active retiring active' retiring',
          report.passes = [active, retiring, active', retiring'] ∧
          ∀ row ∈ s₀.rows, row.userId = owner.id → row.status.isLive = true →
            spared (some 5) row = false →
            (Reaches (some 5) active retiring row.id ∨ Reaches (some 5) active' retiring' row.id) →
              ∀ row', findById s row.id = some row' → row'.status = .revoked)
        (fun _ _ => True) s₀ := by
  obtain ⟨s₀, hs₀, hprop⟩ : ∃ s, MirrorReachable 4 ownConsumer .keyauth s none ∧
      decide (WellFormed s ∧ ∃ row ∈ s.rows, row.userId = owner.id ∧ row.status.isLive = true ∧
        spared (some 5) row = false) = true := by
    refine Serial.exists_reachable_of_execAll
      (fun s o => decide (o.addresses ownConsumer .keyauth s)) lostRevocationRun
      (fun s o h => of_decide_eq_true h)
      (.init (synchronised_of_empty (s := newAccount) rfl rfl rfl)) ?_
    decide
  obtain ⟨hwf, hrow⟩ := of_decide_eq_true hprop
  exact ⟨s₀, hs₀, hwf, hrow, recovery_sweep_exhaustive 0 owner (some 5) 2 s₀ hwf⟩

/-- The older row is revoked, and the settlement of its pair first revokes the
newer one, a key and not an HTTP Basic password: its entry is gone. -/
theorem recovery_sweep_settles_newer_row :
    ¬ ∀ (cap slot : ℕ) (user : UserRecord) (cutoff : Option ℕ) (fuel : ℕ) (s₀ s : World)
      (report : Sweep) (outcomes : List Outcome),
      MirrorReachable cap ownConsumer .keyauth s₀ none →
      (revokeForAccountRecovery slot user cutoff fuel).run.exec outcomes s₀ =
        some (.ok report, s) →
      ∀ row ∈ s₀.rows, row.status.isLive = true → spared cutoff row = true →
        ∀ row', findById s row.id = some row' → row'.status = .revoked →
          row.credentialType = .basicauth := by
  intro hall
  obtain ⟨s₀, hs₀, hprop⟩ : ∃ s₀, MirrorReachable 4 ownConsumer .keyauth s₀ none ∧
      (((revokeForAccountRecovery 0 owner (some 5) 2).run.exec
        (List.replicate 40 .ok) s₀).any fun (result, s) =>
          result.toBool && decide (∃ row ∈ s₀.rows, row.status.isLive = true ∧
            spared (some 5) row = true ∧ row.credentialType = .keyauth ∧
            (findById s row.id).map (·.status) = some .revoked)) = true := by
    refine Serial.exists_reachable_of_execAll
      (fun s o => decide (o.addresses ownConsumer .keyauth s)) lostRevocationRun
      (fun s o h => of_decide_eq_true h)
      (.init (synchronised_of_empty (s := newAccount) rfl rfl rfl)) ?_
    decide
  obtain ⟨⟨result, s⟩, hexec, hs⟩ := (Option.any_eq_true _ _).mp hprop
  cases result with
  | error e => simp [Except.toBool] at hs
  | ok report =>
    simp only [Except.toBool, Bool.true_and, decide_eq_true_eq] at hs
    obtain ⟨row, hrow, hlive, hspared, htype, hrevoked⟩ := hs
    obtain ⟨row', hrow', hstatus⟩ := Option.map_eq_some_iff.mp hrevoked
    have hbasic := hall 4 0 owner (some 5) 2 s₀ s report _ hs₀ hexec row hrow hlive hspared row'
      hrow' hstatus
    rw [htype] at hbasic
    cases hbasic

end FerrumNexus.Credentials
