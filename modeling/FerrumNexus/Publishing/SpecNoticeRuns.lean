import FerrumNexus.Publishing.SpecNotices

/-!
# What an account is told of the revisions of others

The risk that a title records is the worst of the one it was written with and
the one it was rewritten with. An account that is in one batch of every fan-out
has one unread notice, and the risk of that notice is the worst of the revisions
that the fan-outs stood for. A fan-out is not for the account that asked for it,
so nothing is lost as long as such a fan-out stands for revisions of that
account alone.
-/
namespace FerrumNexus.Publishing.SpecNotices

open Platform SpecChanges

/-! ## Risks -/

def EarlierRisk.rank : EarlierRisk → ℕ
  | .none => 0
  | .incomplete => 1
  | .breaking => 2

theorem rank_worst (a b : EarlierRisk) : (worst a b).rank = max a.rank b.rank := by
  cases a <;> cases b <;> rfl

theorem worst_assoc (a b c : EarlierRisk) : worst (worst a b) c = worst a (worst b c) := by
  cases a <;> cases b <;> cases c <;> rfl

theorem worst_eq_breaking {a b : EarlierRisk} (h : worst a b = .breaking) :
    a = .breaking ∨ b = .breaking := by
  cases a <;> cases b <;> simp [worst] at h ⊢

theorem endsWith_append (text mark : String) : endsWith (text ++ mark) mark = true := by
  simp [endsWith]

theorem titleRisk_append_breaking (text : String) :
    titleRisk (text ++ BREAKING_TITLE_MARK) = .breaking :=
  if_pos (endsWith_append text BREAKING_TITLE_MARK)

/-- A title with one mark does not end with the other. -/
theorem titleRisk_append_incomplete (text : String) :
    titleRisk (text ++ INCOMPLETE_TITLE_MARK) = .incomplete := by
  have hnot : ¬endsWith (text ++ INCOMPLETE_TITLE_MARK) BREAKING_TITLE_MARK = true := by
    intro hends
    have hbreaking : BREAKING_TITLE_MARK.toList <:+ text.toList ++ INCOMPLETE_TITLE_MARK.toList := by
      simpa [endsWith] using hends
    have hshorter := List.suffix_of_suffix_length_le hbreaking
      (List.suffix_append text.toList INCOMPLETE_TITLE_MARK.toList) (by decide)
    exact absurd hshorter (by decide)
  rw [titleRisk, if_neg hnot, if_pos (endsWith_append text INCOMPLETE_TITLE_MARK)]

/-- A notice that is rewritten keeps its risk, and the earlier one. -/
theorem titleRisk_rewrittenNotice (notice : SpecChangeNotice) (earlier : EarlierRisk) :
    titleRisk (rewrittenNotice notice earlier).title = worst (titleRisk notice.title) earlier := by
  unfold rewrittenNotice
  cases hown : titleRisk notice.title <;> cases earlier <;>
    simp [worst, hown, titleRisk_append_breaking, titleRisk_append_incomplete]

/-- The title of a revision records its risk, unless it ends like a mark of itself. -/
theorem titleRisk_summary (describe : SpecChangeReport → String) (apiName : String)
    (entry : ApiSpecChangeEntry) :
    titleRisk (summarizeSpecChange describe apiName entry).title =
      if reportRisk entry.report = .none then titleRisk (bareTitle apiName entry)
      else reportRisk entry.report := by
  unfold summarizeSpecChange titleMark reportRisk specChangeIsBreaking
  by_cases hbreaking : 0 < entry.report.counts.breaking
  · simp [hbreaking, titleRisk_append_breaking]
  · cases hcomplete : entry.report.complete <;>
      simp [hbreaking, titleRisk_append_incomplete]

variable {U : Type}

/-- The worst of what a fan-out replaced. -/
def FanOut.superseded (run : FanOut U) : EarlierRisk :=
  if run.supersededBreaking then .breaking
  else if run.supersededIncomplete then .incomplete
  else .none

theorem worst_carried (run : FanOut U) (own : EarlierRisk) :
    worst own (carried run own) = worst own run.superseded := by
  unfold carried FanOut.superseded
  cases own <;> cases run.supersededBreaking <;> cases run.supersededIncomplete <;> rfl

/-- A fan-out carries what the revisions it replaced say. -/
def FanOut.Faithful (run : FanOut U) : Prop :=
  (run.supersededBreaking = true ↔ ∃ r ∈ run.replaced, 0 < r.entry.report.counts.breaking) ∧
    (run.supersededIncomplete = true ↔ ∃ r ∈ run.replaced, r.entry.report.complete = false)

variable {actor : U} {apiName : String} {previous : Option (FanOut U)} {r : Revision U}

theorem faithful_askedFor {change : ApiSpecChangeEntry}
    (h : ∀ run, previous = some run → run.Faithful) :
    (askedFor actor apiName change previous).Faithful := by
  cases previous with
  | none => simp [askedFor, FanOut.Faithful]
  | some run =>
    obtain ⟨hbreaking, hincomplete⟩ := h run rfl
    constructor
    · simp only [askedFor, FanOut.revisions, Bool.or_eq_true, hbreaking, decide_eq_true_eq]
      simp only [List.mem_append, List.mem_singleton, or_and_right, exists_or, exists_eq_left]
    · simp only [askedFor, FanOut.revisions, Bool.or_eq_true, hincomplete, Bool.not_eq_true']
      simp only [List.mem_append, List.mem_singleton, or_and_right, exists_or, exists_eq_left]

theorem rank_reportRisk_le_superseded {run : FanOut U} (h : run.Faithful) (hr : r ∈ run.replaced) :
    (reportRisk r.entry.report).rank ≤ run.superseded.rank := by
  unfold reportRisk FanOut.superseded
  by_cases hbreaking : 0 < r.entry.report.counts.breaking
  · rw [if_pos hbreaking, if_pos (h.1.mpr ⟨r, hr, hbreaking⟩)]
  · rw [if_neg hbreaking]
    cases hcomplete : r.entry.report.complete with
    | true => simp [EarlierRisk.rank]
    | false =>
      rw [if_pos (by simp), if_pos (h.2.mpr ⟨r, hr, hcomplete⟩)]
      split <;> simp [EarlierRisk.rank]

theorem exists_breaking_of_superseded {run : FanOut U} (h : run.Faithful)
    (hbreaking : run.superseded = .breaking) :
    ∃ r ∈ run.replaced, reportRisk r.entry.report = .breaking := by
  have hflag : run.supersededBreaking = true := by
    unfold FanOut.superseded at hbreaking
    split at hbreaking
    · assumption
    · split at hbreaking <;> exact absurd hbreaking (by simp)
  obtain ⟨r, hr, hrisk⟩ := h.1.mp hflag
  exact ⟨r, hr, if_pos hrisk⟩

/-! ## One batch -/

variable [DecidableEq U] {user : U}

/-- What a fan-out makes of the notice that an account has. -/
def newContent (describe : SpecChangeReport → String) (run : FanOut U) (earlier : EarlierRisk) :
    NoticeContent :=
  let notice := summarizeSpecChange describe run.apiName run.change
  rewrittenNotice notice (worst (carried run (titleRisk notice.title)) earlier)

omit [DecidableEq U] in
theorem titleRisk_newContent (describe : SpecChangeReport → String) (run : FanOut U)
    (earlier : EarlierRisk) :
    titleRisk (newContent describe run earlier).title =
      worst (worst (titleRisk (summarizeSpecChange describe run.apiName run.change).title)
        run.superseded) earlier := by
  unfold newContent
  rw [titleRisk_rewrittenNotice, ← worst_assoc, worst_carried]

theorem unreadOf_append (notices more : List (Notification U)) (user : U) :
    unreadOf (notices ++ more) user = unreadOf notices user ++ unreadOf more user :=
  List.filter_append ..

/-- Who is given a fresh notice. -/
theorem unreadOf_fresh {users : List U} (hnodup : users.Nodup) (content : NoticeContent) (user : U) :
    unreadOf (users.map fun other => (⟨other, content, true⟩ : Notification U)) user =
      if user ∈ users then [⟨user, content, true⟩] else [] := by
  induction users with
  | nil => rfl
  | cons first users ih =>
    rw [List.nodup_cons] at hnodup
    have hih := ih hnodup.2
    unfold unreadOf at hih ⊢
    rw [List.map_cons, List.filter_cons, hih]
    by_cases hfirst : first = user
    · subst hfirst
      simp [hnodup.1]
    · have hne : user ≠ first := fun h => hfirst h.symm
      simp [hfirst, hne]

/-- Rewriting is of content alone. -/
theorem unreadOf_map (f : Notification U → Notification U)
    (hf : ∀ row, (f row).unread = row.unread ∧ (f row).user = row.user)
    (notices : List (Notification U)) (user : U) :
    unreadOf (notices.map f) user = (unreadOf notices user).map f := by
  unfold unreadOf
  rw [List.filter_map]
  congr 1
  apply List.filter_congr
  intro row _
  simp only [Function.comp_apply, (hf row).1, (hf row).2]

section Batch

variable {describe : SpecChangeReport → String} {run : FanOut U} {inApp : List U}
  {notices : List (Notification U)}

theorem of_mem_unreadOf {row : Notification U} (h : row ∈ unreadOf notices user) :
    row.unread = true ∧ row.user = user := by
  simpa [unreadOf] using (List.mem_filter.mp h).2

/-- An account that is not in the batch keeps what it has. -/
theorem unreadOf_sendBatch_of_not_mem (hnodup : inApp.Nodup) (hout : user ∉ inApp) :
    unreadOf (sendBatch describe run inApp notices) user = unreadOf notices user := by
  have hrest : user ∉ inApp.filter fun user => unreadOf notices user = [] := fun hmem =>
    hout (List.mem_filter.mp hmem).1
  rw [sendBatch, unreadOf_append, unreadOf_fresh (hnodup.filter _), if_neg hrest, List.append_nil,
    unreadOf_map _ fun row => by split <;> exact ⟨rfl, rfl⟩]
  calc _ = (unreadOf notices user).map id := by
        apply List.map_congr_left
        intro row hrow
        rw [(of_mem_unreadOf hrow).2]
        simp [hout]
    _ = unreadOf notices user := List.map_id _

/-- An account that has no unread notice is given one, with the risk of the fan-out. -/
theorem unreadOf_sendBatch_fresh (hnodup : inApp.Nodup) (hin : user ∈ inApp)
    (hnone : unreadOf notices user = []) :
    ∃ row, unreadOf (sendBatch describe run inApp notices) user = [row] ∧
      titleRisk row.content.title =
        worst (titleRisk (summarizeSpecChange describe run.apiName run.change).title)
          run.superseded := by
  have hfresh : user ∈ inApp.filter fun user => unreadOf notices user = [] :=
    List.mem_filter.mpr ⟨hin, by simpa using hnone⟩
  rw [sendBatch, unreadOf_append, unreadOf_fresh (hnodup.filter _), if_pos hfresh,
    unreadOf_map _ (fun row => by split <;> exact ⟨rfl, rfl⟩), hnone]
  refine ⟨_, rfl, ?_⟩
  simp only
  split
  · rename_i hcarried
    rw [← worst_carried, hcarried]
    cases titleRisk (summarizeSpecChange describe run.apiName run.change).title <;> rfl
  · rw [titleRisk_rewrittenNotice, worst_carried]

/-- An account's unread notice is rewritten, and keeps its risk. -/
theorem unreadOf_sendBatch_rewritten (hnodup : inApp.Nodup) (hin : user ∈ inApp)
    {row : Notification U} (hone : unreadOf notices user = [row]) :
    unreadOf (sendBatch describe run inApp notices) user =
      [{ row with content := newContent describe run (titleRisk row.content.title) }] := by
  have hrest : user ∉ inApp.filter fun user => unreadOf notices user = [] := by
    intro hmem
    have hnil : unreadOf notices user = [] := by simpa using (List.mem_filter.mp hmem).2
    rw [hone] at hnil
    exact absurd hnil (by simp)
  obtain ⟨hunread, huser⟩ := of_mem_unreadOf (hone ▸ List.mem_singleton.mpr rfl : row ∈ unreadOf notices user)
  rw [sendBatch, unreadOf_append, unreadOf_fresh (hnodup.filter _), if_neg hrest, List.append_nil,
    unreadOf_map _ (fun row => by split <;> exact ⟨rfl, rfl⟩), hone]
  simp only [List.map_cons, List.map_nil, hunread, huser, hone, List.foldl_cons, List.foldl_nil]
  simp [hin, newContent]

end Batch

/-! ## Who a fan-out is for -/

omit [DecidableEq U] in
theorem flatten_slices {fuel : ℕ} {users : List U} (h : users.length ≤ fuel) [DecidableEq U] :
    (slices fuel users).flatten = users := by
  induction fuel generalizing users with
  | zero =>
    obtain rfl := List.eq_nil_of_length_eq_zero (Nat.le_zero.mp h)
    rfl
  | succ fuel ih =>
    unfold slices
    split
    · rename_i hnil
      exact hnil.symm
    · rename_i hne
      have hpos : 0 < users.length := List.length_pos_of_ne_nil hne
      have hdrop : (users.drop SPEC_CHANGE_NOTICE_BATCH).length ≤ fuel := by
        rw [List.length_drop, SPEC_CHANGE_NOTICE_BATCH]
        omega
      rw [List.flatten_cons, ih hdrop, List.take_append_drop]

theorem nodup_eraseDups (users : List U) : users.eraseDups.Nodup := by
  induction h : users.length using Nat.strong_induction_on generalizing users with
  | _ n ih =>
    cases users with
    | nil => exact List.nodup_nil
    | cons first users =>
      rw [List.eraseDups_cons, List.nodup_cons]
      have hlt : (users.filter fun b => !b == first).length < n := by
        have hle := List.length_filter_le (fun b => !b == first) users
        rw [List.length_cons] at h
        omega
      refine ⟨?_, ih _ hlt _ rfl⟩
      rw [List.mem_eraseDups, List.mem_filter]
      simp

theorem recipients_nodup (accounts : Accounts U) (actor : U) :
    (recipients accounts actor).Nodup := (nodup_eraseDups accounts.grants).filter _

variable {accounts : Accounts U} {notices : List (Notification U)}

theorem mem_recipients :
    user ∈ recipients accounts actor ↔ user ∈ accounts.grants ∧ user ≠ actor := by
  simp [recipients]

/-- What a plan says of an account that holds a grant, is active and wants the notice. -/
theorem planBatch_eq_some {ids inApp : List U} (h : planBatch accounts ids = some inApp)
    (hnodup : ids.Nodup) :
    inApp.Nodup ∧ (∀ other ∈ inApp, other ∈ ids) ∧
      (user ∈ ids → user ∈ accounts.grants → accounts.active user = true →
        accounts.wantsInApp user = true → user ∈ inApp) := by
  unfold planBatch at h
  simp only at h
  split at h
  · exact absurd h (by simp)
  · obtain rfl := Option.some_inj.mp h
    refine ⟨(hnodup.filter _).filter _, fun other hother => ?_, fun hids hgrants hactive hwants => ?_⟩
    · exact (List.mem_filter.mp (List.mem_filter.mp hother).1).1
    · exact List.mem_filter.mpr ⟨List.mem_filter.mpr ⟨hids, by simp [hgrants, hactive]⟩, hwants⟩

theorem planBatch_eq_none {ids : List U} (h : planBatch accounts ids = none)
    (hgrants : user ∈ accounts.grants) (hactive : accounts.active user = true) : user ∉ ids := by
  unfold planBatch at h
  simp only at h
  split at h
  · rename_i hnil
    intro hids
    have hmem : user ∈ ids.filter fun user => accounts.grants.contains user && accounts.active user :=
      List.mem_filter.mpr ⟨hids, by simp [hgrants, hactive]⟩
    rw [hnil] at hmem
    exact List.not_mem_nil hmem
  · exact absurd h (by simp)

/-! ## What an account is told in a run -/

/-- The account holds an active grant, is active, and wants the notice. -/
def Held (user : U) (accounts : Accounts U) : Prop :=
  user ∈ accounts.grants ∧ accounts.active user = true ∧ accounts.wantsInApp user = true

/-- No batch fails, nothing is stopped, and the account goes on holding its grant and does not read. -/
def Undisturbed (user : U) : NotifierEvent U → Prop
  | .fail => False
  | .stop => False
  | .read other => other ≠ user
  | .change accounts => Held user accounts
  | _ => True

/-- The account asked for a fan-out in the place of its own revisions alone; and a fan-out of
another carries no breaking revision but one of another. -/
def Fair (user : U) (run : FanOut U) : Prop :=
  if run.actor = user then ∀ r ∈ run.revisions, r.actor = user
  else (∃ r ∈ run.revisions, reportRisk r.entry.report = .breaking) →
    ∃ r ∈ run.revisions, r.actor ≠ user ∧ reportRisk r.entry.report = .breaking

/-- The title of a revision without risk does not end like that of one that breaks something. -/
def Worded (apiName : String) (entry : ApiSpecChangeEntry) : Prop :=
  reportRisk entry.report = .none → titleRisk (bareTitle apiName entry) ≠ .breaking

/-- What a step has to meet: a revision that is news is worded so, and a waiting fan-out whose turn
has come is fair. -/
def StepFair (user : U) (s : NotifierState U) : NotifierEvent U → Prop
  | .notify _ apiName change => Worded apiName change
  | .finish => ∀ lane run, s.lane = some lane → lane.waiting = some run → Fair user run
  | _ => True

/-- Every step of a run meets a condition. -/
def Along (describe : SpecChangeReport → String) (P : NotifierState U → NotifierEvent U → Prop) :
    NotifierState U → List (NotifierEvent U) → Prop
  | _, [] => True
  | s, event :: events =>
    P s event ∧ ∀ s', s.step describe event = some s' → Along describe P s' events

/-- The unread notice of an account records the worst of some revisions. -/
def Marks (user : U) (told : List (Revision U)) (notices : List (Notification U)) : Prop :=
  (told = [] ∧ unreadOf notices user = []) ∨
  (told ≠ [] ∧ ∃ row, unreadOf notices user = [row] ∧
    (∀ r ∈ told, (reportRisk r.entry.report).rank ≤ (titleRisk row.content.title).rank) ∧
    (titleRisk row.content.title = .breaking →
      ∃ r ∈ told, reportRisk r.entry.report = .breaking))

omit [DecidableEq U] in
theorem mem_newsFor [DecidableEq U] {news : List (Revision U)} :
    r ∈ newsFor user news ↔ r ∈ news ∧ r.actor ≠ user := by
  simp [newsFor]

/-- A notice that marks the news of others says what it has to. -/
theorem Marks.told {told news : List (Revision U)} (h : Marks user told notices)
    (hsame : ∀ r, r ∈ newsFor user news ↔ r ∈ told) :
    Told user news notices := by
  unfold Told
  rcases h with ⟨rfl, hnone⟩ | ⟨hne, row, hrow, hle, hbreaking⟩
  · have hnil : newsFor user news = [] := List.eq_nil_iff_forall_not_mem.mpr fun r hr =>
      List.not_mem_nil ((hsame r).mp hr)
    rw [if_pos hnil]
    exact hnone
  · have hnews : newsFor user news ≠ [] := by
      obtain ⟨r, hr⟩ := List.exists_mem_of_ne_nil _ hne
      exact List.ne_nil_of_mem ((hsame r).mpr hr)
    rw [if_neg hnews]
    refine ⟨row, hrow, ?_⟩
    split
    · rename_i hany
      obtain ⟨r, hr, hrisk⟩ := List.any_eq_true.mp hany
      have hrank := hle r ((hsame r).mp hr)
      rw [of_decide_eq_true hrisk] at hrank
      cases htitle : titleRisk row.content.title with
      | none => simp [htitle, EarlierRisk.rank] at hrank
      | incomplete => simp [htitle, EarlierRisk.rank] at hrank
      | breaking => rfl
    · rename_i hnot
      split
      · rename_i hany
        obtain ⟨r, hr, hrisk⟩ := List.any_eq_true.mp hany
        have hrank := hle r ((hsame r).mp hr)
        rw [of_decide_eq_true hrisk] at hrank
        cases htitle : titleRisk row.content.title with
        | none => simp [htitle, EarlierRisk.rank] at hrank
        | incomplete => rfl
        | breaking =>
          obtain ⟨worse, hworse, hbreak⟩ := hbreaking htitle
          exact absurd (List.any_eq_true.mpr ⟨worse, (hsame worse).mpr hworse,
            decide_eq_true hbreak⟩) hnot
      · trivial

/-- A batch with the account in it marks the revisions of its fan-out. -/
theorem Marks.sendBatch {told : List (Revision U)} (h : Marks user told notices)
    (describe : SpecChangeReport → String) {run : FanOut U} {inApp : List U} (hnodup : inApp.Nodup)
    (hin : user ∈ inApp) (hother : run.actor ≠ user) (hfaithful : run.Faithful)
    (hfair : Fair user run) (hworded : Worded run.apiName run.change) :
    Marks user (told ++ newsFor user run.revisions) (sendBatch describe run inApp notices) := by
  let own := titleRisk (summarizeSpecChange describe run.apiName run.change).title
  have hself : (⟨run.actor, run.change⟩ : Revision U) ∈ newsFor user run.revisions :=
    mem_newsFor.mpr ⟨List.mem_append_right _ List.mem_cons_self, hother⟩
  have hne : told ++ newsFor user run.revisions ≠ [] :=
    List.ne_nil_of_mem (List.mem_append_right _ hself)
  have hown : own = if reportRisk run.change.report = .none then
      titleRisk (bareTitle run.apiName run.change) else reportRisk run.change.report :=
    titleRisk_summary describe run.apiName run.change
  have hle : ∀ r ∈ newsFor user run.revisions,
      (reportRisk r.entry.report).rank ≤ (worst own run.superseded).rank := by
    intro r hr
    rw [rank_worst]
    rcases List.mem_append.mp (mem_newsFor.mp hr).1 with hreplaced | hlast
    · exact (rank_reportRisk_le_superseded hfaithful hreplaced).trans (le_max_right _ _)
    · obtain rfl := List.mem_singleton.mp hlast
      refine le_trans ?_ (le_max_left _ _)
      rw [hown]
      split
      · rename_i hnone
        rw [hnone]
        exact Nat.zero_le _
      · exact le_rfl
  have hbreaking (hworst : worst own run.superseded = .breaking) :
      ∃ r ∈ newsFor user run.revisions, reportRisk r.entry.report = .breaking := by
    have hsome : ∃ r ∈ run.revisions, reportRisk r.entry.report = .breaking := by
      rcases worst_eq_breaking hworst with howned | hreplaced
      · refine ⟨_, List.mem_append_right _ List.mem_cons_self, ?_⟩
        by_contra hnot
        rw [hown] at howned
        split at howned
        · rename_i hnone
          exact hworded hnone howned
        · exact hnot howned
      · obtain ⟨r, hr, hrisk⟩ := exists_breaking_of_superseded hfaithful hreplaced
        exact ⟨r, List.mem_append_left _ hr, hrisk⟩
    rw [Fair, if_neg hother] at hfair
    obtain ⟨r, hr, hactor, hrisk⟩ := hfair hsome
    exact ⟨r, mem_newsFor.mpr ⟨hr, hactor⟩, hrisk⟩
  rcases h with ⟨rfl, hnone⟩ | ⟨-, row, hrow, hbefore, hbreakingBefore⟩
  · obtain ⟨row, hrow, hrisk⟩ := @unreadOf_sendBatch_fresh U _ user describe run inApp notices hnodup
      hin hnone
    refine Or.inr ⟨hne, row, hrow, fun r hr => ?_, fun htitle => ?_⟩
    · rw [hrisk]
      exact hle r (by simpa using hr)
    · rw [hrisk] at htitle
      obtain ⟨r, hr, hbreak⟩ := hbreaking htitle
      exact ⟨r, List.mem_append_right _ hr, hbreak⟩
  · have hrewritten := @unreadOf_sendBatch_rewritten U _ user describe run inApp notices hnodup hin
      row hrow
    have hrisk := titleRisk_newContent describe run (titleRisk row.content.title)
    refine Or.inr ⟨hne, _, hrewritten, fun r hr => ?_, fun htitle => ?_⟩
    · simp only [hrisk, rank_worst]
      rcases List.mem_append.mp hr with hold | hnew
      · exact (hbefore r hold).trans (le_max_right _ _)
      · refine le_trans ?_ (le_max_left _ _)
        rw [← rank_worst]
        exact hle r hnew
    · simp only [hrisk] at htitle
      rcases worst_eq_breaking htitle with hnew | hold
      · obtain ⟨r, hr, hbreak⟩ := hbreaking hnew
        exact ⟨r, List.mem_append_right _ hr, hbreak⟩
      · obtain ⟨r, hr, hbreak⟩ := hbreakingBefore hold
        exact ⟨r, List.mem_append_left _ hr, hbreak⟩

/-! ## The lane -/

/-- Whether a fan-out has yet to come to the account. -/
def Pending (user : U) : Stage U → Prop
  | .starting => True
  | .sending _ batches => user ∈ batches.flatten

/-- An account is in one batch at most, and in none of a fan-out of its own; and it is told with its
batch. -/
def StageGood (user : U) (run : FanOut U) : Stage U → Prop
  | .starting => True
  | .sending planned batches =>
    batches.flatten.Nodup ∧ (run.actor = user → user ∉ batches.flatten) ∧
      ∀ inApp, planned = some inApp → ∃ ids rest, batches = ids :: rest ∧ inApp.Nodup ∧
        (∀ other ∈ inApp, other ∈ ids) ∧ (user ∈ ids → user ∈ inApp)

structure LaneGood (user : U) (lane : Lane U) : Prop where
  faithful : lane.running.Faithful
  fair : Fair user lane.running
  worded : Worded lane.running.apiName lane.running.change
  stage : StageGood user lane.running lane.stage
  waiting : ∀ run, lane.waiting = some run → run.Faithful ∧ Worded run.apiName run.change

/-- The news of others that the account is yet to be told. -/
def LaneNews (user : U) (lane : Option (Lane U)) (r : Revision U) : Prop :=
  ∃ l, lane = some l ∧ ((Pending user l.stage ∧ r ∈ newsFor user l.running.revisions) ∨
    ∃ run, l.waiting = some run ∧ r ∈ newsFor user run.revisions)

theorem laneNews_some {lane : Lane U} :
    LaneNews user (some lane) r ↔ (Pending user lane.stage ∧ r ∈ newsFor user lane.running.revisions) ∨
      ∃ run, lane.waiting = some run ∧ r ∈ newsFor user run.revisions := by
  constructor
  · rintro ⟨other, hother, hnews⟩
    obtain rfl := Option.some_inj.mp hother
    exact hnews
  · intro hnews
    exact ⟨lane, rfl, hnews⟩

theorem not_laneNews_none : ¬LaneNews user none r := by
  rintro ⟨lane, hlane, -⟩
  exact Option.some_ne_none lane hlane.symm

/-- What has been told and what is yet to be told is what was news. -/
structure Inv (user : U) (s : NotifierState U) : Prop where
  held : Held user s.accounts
  going : s.stopping = false
  lane : ∀ lane, s.lane = some lane → LaneGood user lane
  told : ∃ told, Marks user told s.notices ∧
    ∀ r, r ∈ newsFor user s.news ↔ r ∈ told ∨ LaneNews user s.lane r

theorem Marks.congr {told : List (Revision U)} {notices' : List (Notification U)}
    (h : Marks user told notices) (hsame : unreadOf notices' user = unreadOf notices user) :
    Marks user told notices' := by
  unfold Marks
  rw [hsame]
  exact h

omit [DecidableEq U] in
theorem mem_revisions_askedFor {change : ApiSpecChangeEntry} :
    r ∈ (askedFor actor apiName change previous).revisions ↔
      (∃ run, previous = some run ∧ r ∈ run.revisions) ∨ r = ⟨actor, change⟩ := by
  cases previous with
  | none => simp [askedFor, FanOut.revisions]
  | some run => simp [askedFor, FanOut.revisions, or_assoc]

omit [DecidableEq U] in
theorem worded_askedFor {change : ApiSpecChangeEntry} (previous : Option (FanOut U))
    (h : Worded apiName change) :
    Worded (askedFor actor apiName change previous).apiName
      (askedFor actor apiName change previous).change := by
  cases previous with
  | none => exact h
  | some run => exact h

theorem mem_newsFor_askedFor {change : ApiSpecChangeEntry} :
    r ∈ newsFor user (askedFor actor apiName change previous).revisions ↔
      (∃ run, previous = some run ∧ r ∈ newsFor user run.revisions) ∨
        (r = ⟨actor, change⟩ ∧ r.actor ≠ user) := by
  rw [mem_newsFor, mem_revisions_askedFor, or_and_right]
  apply or_congr_left
  constructor
  · rintro ⟨⟨run, hrun, hr⟩, hother⟩
    exact ⟨run, hrun, mem_newsFor.mpr ⟨hr, hother⟩⟩
  · rintro ⟨run, hrun, hr⟩
    obtain ⟨hmem, hother⟩ := mem_newsFor.mp hr
    exact ⟨⟨run, hrun, hmem⟩, hother⟩

theorem newsFor_of_fair {run : FanOut U} (hfair : Fair user run) (hactor : run.actor = user)
    (r : Revision U) : r ∉ newsFor user run.revisions := by
  intro hr
  obtain ⟨hmem, hother⟩ := mem_newsFor.mp hr
  rw [Fair, if_pos hactor] at hfair
  exact hother (hfair r hmem)

/-- A fan-out that replaces none is fair. -/
theorem fair_askedFor_none (actor : U) (apiName : String) (change : ApiSpecChangeEntry) :
    Fair user (askedFor actor apiName change none) := by
  have hactor : (askedFor actor apiName change none).actor = actor := rfl
  have hrevisions : (askedFor actor apiName change none).revisions = [⟨actor, change⟩] := rfl
  rw [Fair, hactor, hrevisions]
  split
  · rename_i hself
    exact List.forall_mem_singleton.mpr hself
  · rename_i hother
    rintro ⟨r, hr, hrisk⟩
    obtain rfl := List.mem_singleton.mp hr
    exact ⟨_, List.mem_cons_self, hother, hrisk⟩

section Steps

variable {describe : SpecChangeReport → String} {s s' : NotifierState U}

/-- A revision that is news is asked for as a fan-out. -/
theorem step_notify {actor : U} {apiName : String} {change : ApiSpecChangeEntry}
    (hstep : s.step describe (.notify actor apiName change) = some s') :
    s' = s ∨ (s.lane = none ∧ s' =
        { s with
          news := s.news ++ [⟨actor, change⟩]
          lane := some ⟨askedFor actor apiName change none, .starting, none⟩ }) ∨
      ∃ lane, s.lane = some lane ∧ s' =
        { s with
          news := s.news ++ [⟨actor, change⟩]
          lane := some ⟨lane.running, lane.stage,
            some (askedFor actor apiName change lane.waiting)⟩ } := by
  simp only [NotifierState.step] at hstep
  split at hstep
  · exact Or.inl (Option.some_inj.mp hstep).symm
  · split at hstep
    · rename_i hnone
      exact Or.inr (Or.inl ⟨hnone, (Option.some_inj.mp hstep).symm⟩)
    · rename_i lane hlane
      exact Or.inr (Or.inr ⟨lane, hlane, (Option.some_inj.mp hstep).symm⟩)

theorem Inv.notify (h : Inv user s) {actor : U} {apiName : String} {change : ApiSpecChangeEntry}
    (hworded : Worded apiName change)
    (hstep : s.step describe (.notify actor apiName change) = some s') : Inv user s' := by
  obtain ⟨told, hmarks, hnews⟩ := h.told
  have hnew (r : Revision U) : r ∈ newsFor user (s.news ++ [⟨actor, change⟩]) ↔
      (r ∈ told ∨ LaneNews user s.lane r) ∨ (r = ⟨actor, change⟩ ∧ r.actor ≠ user) := by
    rw [← hnews r, mem_newsFor, mem_newsFor, List.mem_append, List.mem_singleton, or_and_right]
  rcases step_notify hstep with rfl | ⟨hnone, rfl⟩ | ⟨lane, hlane, rfl⟩
  · exact h
  · refine ⟨h.held, h.going, ?_, told, hmarks, fun r => ?_⟩
    · intro lane hlane
      obtain rfl := Option.some_inj.mp hlane
      exact
        { faithful := faithful_askedFor fun run hrun => absurd hrun.symm (Option.some_ne_none run)
          fair := fair_askedFor_none actor apiName change
          worded := hworded
          stage := trivial
          waiting := fun run hrun => absurd hrun.symm (Option.some_ne_none run) }
    · have hbefore : ¬LaneNews user s.lane r := by
        rw [hnone]
        exact not_laneNews_none
      have hafter : (Pending user Stage.starting ∧
            r ∈ newsFor user (askedFor actor apiName change none).revisions) ↔
          (r = ⟨actor, change⟩ ∧ r.actor ≠ user) := by
        rw [mem_newsFor_askedFor]
        simp [Pending]
      rw [hnew r, laneNews_some, hafter]
      simp [hbefore]
  · have hgood := h.lane lane hlane
    refine ⟨h.held, h.going, ?_, told, hmarks, fun r => ?_⟩
    · intro next hnext
      obtain rfl := Option.some_inj.mp hnext
      exact
        { faithful := hgood.faithful
          fair := hgood.fair
          worded := hgood.worded
          stage := hgood.stage
          waiting := fun run hrun => by
            obtain rfl := Option.some_inj.mp hrun
            exact ⟨faithful_askedFor fun run hrun => (hgood.waiting run hrun).1,
              worded_askedFor lane.waiting hworded⟩ }
    · have hwaiting : (∃ run, some (askedFor actor apiName change lane.waiting) = some run ∧
            r ∈ newsFor user run.revisions) ↔
          (∃ run, lane.waiting = some run ∧ r ∈ newsFor user run.revisions) ∨
            (r = ⟨actor, change⟩ ∧ r.actor ≠ user) := by
        rw [← mem_newsFor_askedFor]
        constructor
        · rintro ⟨run, hrun, hr⟩
          obtain rfl := Option.some_inj.mp hrun
          exact hr
        · intro hr
          exact ⟨_, rfl, hr⟩
      rw [hnew r, hlane, laneNews_some, laneNews_some, hwaiting]
      simp only [or_assoc]

/-- A fan-out that goes on is as much to be told as before. -/
theorem Inv.goOn (h : Inv user s) {lane : Lane U} (hlane : s.lane = some lane) {stage : Stage U}
    (hgood : StageGood user lane.running stage)
    (hpending : ∀ r ∈ newsFor user lane.running.revisions,
      Pending user stage ↔ Pending user lane.stage) :
    Inv user { s with lane := some ⟨lane.running, stage, lane.waiting⟩ } := by
  obtain ⟨told, hmarks, hnews⟩ := h.told
  have hbefore := h.lane lane hlane
  refine ⟨h.held, h.going, ?_, told, hmarks, fun r => ?_⟩
  · intro next hnext
    obtain rfl := Option.some_inj.mp hnext
    exact
      { faithful := hbefore.faithful
        fair := hbefore.fair
        worded := hbefore.worded
        stage := hgood
        waiting := hbefore.waiting }
  · rw [hnews r, hlane, laneNews_some, laneNews_some, and_congr_left fun hr => hpending r hr]

/-- The accounts of a fan-out are all that hold a grant but the one that asked for it. -/
theorem Inv.start (h : Inv user s) (hstep : s.step describe .start = some s') : Inv user s' := by
  simp only [NotifierState.step] at hstep
  split at hstep
  · rename_i run waiting hlane
    obtain rfl := Option.some_inj.mp hstep
    have hflat : (slices (recipients s.accounts run.actor).length
        (recipients s.accounts run.actor)).flatten = recipients s.accounts run.actor :=
      flatten_slices le_rfl
    apply h.goOn hlane
    · refine ⟨?_, ?_, fun inApp hplanned => absurd hplanned.symm (Option.some_ne_none inApp)⟩
      · rw [hflat]
        exact recipients_nodup s.accounts run.actor
      · intro hactor huser
        rw [hflat, mem_recipients] at huser
        exact huser.2 hactor.symm
    · intro r hr
      have hother : user ≠ run.actor := fun hactor =>
        newsFor_of_fair (h.lane _ hlane).fair hactor.symm r hr
      have hin : user ∈ recipients s.accounts run.actor := mem_recipients.mpr ⟨h.held.1, hother⟩
      simp only [Pending, hflat, hin]
  · exact absurd hstep (by simp)

/-- A batch that tells nobody in the portal does not have the account in it. -/
theorem Inv.plan (h : Inv user s) (hstep : s.step describe .plan = some s') : Inv user s' := by
  simp only [NotifierState.step] at hstep
  split at hstep
  · rename_i run ids batches waiting hlane
    rw [if_neg (by simp [h.going])] at hstep
    obtain ⟨hnodup, hown, -⟩ := (h.lane _ hlane).stage
    rw [List.flatten_cons] at hnodup hown
    obtain ⟨hgrants, hactive, hwants⟩ := h.held
    split at hstep
    · rename_i hnobody
      obtain rfl := Option.some_inj.mp hstep
      have hout : user ∉ ids := planBatch_eq_none hnobody hgrants hactive
      apply h.goOn hlane
      · refine ⟨hnodup.of_append_right, fun hactor huser => ?_,
          fun inApp hplanned => absurd hplanned.symm (Option.some_ne_none inApp)⟩
        exact hown hactor (List.mem_append_right ids huser)
      · intro r _
        simp only [Pending, List.flatten_cons, List.mem_append, hout, false_or]
    · rename_i inApp hplanned
      obtain rfl := Option.some_inj.mp hstep
      obtain ⟨hinApp, hsub, huser⟩ := @planBatch_eq_some U _ user _ _ _ hplanned hnodup.of_append_left
      apply h.goOn hlane
      · refine ⟨?_, ?_, fun other hother => ?_⟩
        · rw [List.flatten_cons]
          exact hnodup
        · rw [List.flatten_cons]
          exact hown
        · obtain rfl := Option.some_inj.mp hother
          exact ⟨ids, batches, rfl, hinApp, hsub, fun hids => huser hids hgrants hactive hwants⟩
      · intro r _
        exact Iff.rfl
  · exact absurd hstep (by simp)

/-- What a batch tells the account is no longer to be told. -/
theorem Inv.commit (h : Inv user s) (hstep : s.step describe .commit = some s') : Inv user s' := by
  simp only [NotifierState.step] at hstep
  split at hstep
  · rename_i run inApp ids batches waiting hlane
    obtain rfl := Option.some_inj.mp hstep
    have hgood := h.lane _ hlane
    obtain ⟨hnodup, hown, hplanned⟩ := hgood.stage
    obtain ⟨ids', batches', hbatches, hinApp, hsub, hin⟩ := hplanned inApp rfl
    obtain ⟨rfl, rfl⟩ := List.cons.inj hbatches
    rw [List.flatten_cons] at hnodup hown
    obtain ⟨told, hmarks, hnews⟩ := h.told
    have hlanes (next : Lane U) (hnext : some ⟨run, Stage.sending none batches, waiting⟩ = some next) :
        LaneGood user next := by
      obtain rfl := Option.some_inj.mp hnext
      exact
        { faithful := hgood.faithful
          fair := hgood.fair
          worded := hgood.worded
          stage := ⟨hnodup.of_append_right,
            fun hactor huser => hown hactor (List.mem_append_right ids huser),
            fun inApp hplanned => absurd hplanned.symm (Option.some_ne_none inApp)⟩
          waiting := hgood.waiting }
    by_cases huser : user ∈ ids
    · have hother : run.actor ≠ user := fun hactor => hown hactor (List.mem_append_left _ huser)
      have hout : user ∉ batches.flatten := fun hlater =>
        (List.nodup_append.mp hnodup).2.2 user huser user hlater rfl
      refine ⟨h.held, h.going, hlanes, told ++ newsFor user run.revisions,
        hmarks.sendBatch describe hinApp (hin huser) hother hgood.faithful hgood.fair hgood.worded,
        fun r => ?_⟩
      rw [hnews r, hlane, laneNews_some, laneNews_some, List.mem_append]
      simp only [Pending, List.flatten_cons, List.mem_append, huser, hout, true_or, true_and,
        false_and, false_or, or_assoc]
    · have hnot : user ∉ inApp := fun hmem => huser (hsub user hmem)
      refine ⟨h.held, h.going, hlanes, told,
        hmarks.congr (unreadOf_sendBatch_of_not_mem hinApp hnot), fun r => ?_⟩
      rw [hnews r, hlane, laneNews_some, laneNews_some]
      simp only [Pending, List.flatten_cons, List.mem_append, huser, false_or]
  · exact absurd hstep (by simp)

/-- The fan-out that waited goes next. -/
theorem Inv.finish (h : Inv user s)
    (hfair : ∀ lane run, s.lane = some lane → lane.waiting = some run → Fair user run)
    (hstep : s.step describe .finish = some s') : Inv user s' := by
  simp only [NotifierState.step] at hstep
  split at hstep
  · rename_i run waiting hlane
    obtain rfl := Option.some_inj.mp hstep
    obtain ⟨told, hmarks, hnews⟩ := h.told
    have hdone (r : Revision U) : LaneNews user s.lane r ↔
        ∃ run, waiting = some run ∧ r ∈ newsFor user run.revisions := by
      rw [hlane, laneNews_some]
      simp [Pending]
    cases waiting with
    | none =>
      refine ⟨h.held, h.going, fun lane hnone => absurd hnone.symm (Option.some_ne_none lane), told,
        hmarks, fun r => ?_⟩
      rw [hnews r, hdone r]
      have hidle : ¬LaneNews user (nextLane s.stopping none) r := not_laneNews_none
      simp [hidle]
    | some next =>
      have hnext : nextLane s.stopping (some next) = some ⟨next, .starting, none⟩ := by
        rw [nextLane, h.going]
        rfl
      refine ⟨h.held, h.going, ?_, told, hmarks, fun r => ?_⟩
      · intro lane hsome
        rw [hnext] at hsome
        obtain rfl := Option.some_inj.mp hsome
        obtain ⟨hfaithful, hworded⟩ := (h.lane _ hlane).waiting next rfl
        exact
          { faithful := hfaithful
            fair := hfair _ next hlane rfl
            worded := hworded
            stage := trivial
            waiting := fun run hrun => absurd hrun.symm (Option.some_ne_none run) }
      · rw [hnews r, hdone r, hnext, laneNews_some]
        simp [Pending]
  · exact absurd hstep (by simp)

theorem Inv.change (h : Inv user s) {accounts : Accounts U} (hheld : Held user accounts)
    (hstep : s.step describe (.change accounts) = some s') : Inv user s' := by
  obtain rfl := Option.some_inj.mp hstep
  exact ⟨hheld, h.going, h.lane, h.told⟩

/-- Another account's reading leaves the notice of the account unread. -/
theorem Inv.read (h : Inv user s) {other : U} (hother : other ≠ user)
    (hstep : s.step describe (.read other) = some s') : Inv user s' := by
  obtain rfl := Option.some_inj.mp hstep
  obtain ⟨told, hmarks, hnews⟩ := h.told
  refine ⟨h.held, h.going, h.lane, told, hmarks.congr ?_, hnews⟩
  unfold unreadOf
  rw [List.filter_map]
  have hsame : ∀ row ∈ s.notices, ((fun row : Notification U => row.unread && row.user == user) ∘
      fun row => if row.user = other then { row with unread := false } else row) row =
        (row.unread && row.user == user) := by
    intro row _
    simp only [Function.comp_apply]
    split
    · rename_i hrow
      simp [hrow, hother]
    · rfl
  rw [List.filter_congr hsame]
  calc _ = (s.notices.filter fun row => row.unread && row.user == user).map id := by
        apply List.map_congr_left
        intro row hrow
        have huser : row.user = user := (of_mem_unreadOf hrow).2
        rw [if_neg fun hread => hother (hread.symm.trans huser)]
        rfl
    _ = _ := List.map_id _

theorem Inv.step (h : Inv user s) {event : NotifierEvent U} (hquiet : Undisturbed user event)
    (hfair : StepFair user s event) (hstep : s.step describe event = some s') : Inv user s' := by
  cases event with
  | notify actor apiName change => exact h.notify hfair hstep
  | start => exact h.start hstep
  | plan => exact h.plan hstep
  | commit => exact h.commit hstep
  | fail => exact hquiet.elim
  | finish => exact h.finish hfair hstep
  | change accounts => exact h.change hquiet hstep
  | read other => exact h.read hquiet hstep
  | stop => exact hquiet.elim

theorem Inv.run (h : Inv user s) {events : List (NotifierEvent U)}
    (hquiet : ∀ event ∈ events, Undisturbed user event)
    (hfair : Along describe (StepFair user) s events)
    (hrun : s.run describe events = some s') : Inv user s' := by
  induction events generalizing s with
  | nil =>
    obtain rfl := Option.some_inj.mp hrun
    exact h
  | cons event events ih =>
    unfold NotifierState.run at hrun
    rw [List.foldlM_cons] at hrun
    obtain ⟨next, hstep, hrest⟩ := Option.bind_eq_some_iff.mp hrun
    exact ih (h.step (hquiet event List.mem_cons_self) hfair.1 hstep)
      (fun later hlater => hquiet later (List.mem_cons_of_mem event hlater)) (hfair.2 next hstep) hrest

/-- Nothing runs or waits, and the account has nothing unread. -/
structure Idle (user : U) (s : NotifierState U) : Prop where
  lane : s.lane = none
  going : s.stopping = false
  news : s.news = []
  unread : unreadOf s.notices user = []
  held : Held user s.accounts

theorem Idle.inv (h : Idle user s) : Inv user s := by
  refine ⟨h.held, h.going, fun lane hlane => ?_, [], Or.inl ⟨rfl, h.unread⟩, fun r => ?_⟩
  · rw [h.lane] at hlane
    exact absurd hlane.symm (Option.some_ne_none lane)
  · rw [h.news, h.lane]
    simp [newsFor, not_laneNews_none]

/-- Once nothing runs or waits again, an account has been told of the revisions of others. -/
theorem grantee_is_told (describe : SpecChangeReport → String) (h : Idle user s)
    {events : List (NotifierEvent U)} (hquiet : ∀ event ∈ events, Undisturbed user event)
    (hfair : Along describe (StepFair user) s events)
    (hrun : s.run describe events = some s') (hidle : s'.lane = none) :
    Told user s'.news s'.notices := by
  obtain ⟨told, hmarks, hnews⟩ := (h.inv.run hquiet hfair hrun).told
  apply hmarks.told
  intro r
  rw [hnews r, hidle]
  simp [not_laneNews_none]

end Steps

/-! ## Three revisions and one account -/

theorem worded_of_none {entry : ApiSpecChangeEntry}
    (h : titleRisk (bareTitle apiName entry) = .none) : Worded apiName entry := by
  intro _ hbreaking
  rw [h] at hbreaking
  exact absurd hbreaking (by decide)

theorem Along.cons {describe : SpecChangeReport → String} {s s' : NotifierState U}
    {P : NotifierState U → NotifierEvent U → Prop} {event : NotifierEvent U}
    {events : List (NotifierEvent U)} (h : P s event) (hstep : s.step describe event = some s')
    (hrest : Along describe P s' events) : Along describe P s (event :: events) := by
  refine ⟨h, fun next hnext => ?_⟩
  obtain rfl := Option.some_inj.mp (hstep.symm.trans hnext)
  exact hrest

instance (run : FanOut U) : Decidable (Fair user run) := by
  unfold Fair
  infer_instance

def addition (version : String) (id : ℕ) : ApiSpecChangeEntry :=
  ⟨id, false, version, ⟨true, true, [], ⟨0, 1, 1, 0, 0, 0⟩, false, []⟩⟩

def removal (version : String) (id : ℕ) : ApiSpecChangeEntry :=
  ⟨id, false, version, ⟨true, true, [], ⟨1, 0, 0, 1, 0, 0⟩, false, []⟩⟩

def bodyOf (_ : SpecChangeReport) : String := "See the Changes tab."

/-- Account `3` holds a grant. -/
def oneHolder : NotifierState ℕ := ⟨⟨[3], fun _ => true, fun _ => true⟩, [], none, false, []⟩

theorem idle_oneHolder : Idle 3 oneHolder :=
  ⟨rfl, rfl, rfl, rfl, List.mem_cons_self, rfl, rfl⟩

/-- The fan-out of the first revision runs while two more are published, the last by `actor`. -/
def threeRevisions (actor : ℕ) : List (NotifierEvent ℕ) :=
  [.notify 1 "Orders" (addition "1.1.0" 1), .start, .notify 2 "Orders" (removal "2.0.0" 2),
    .notify actor "Orders" (addition "2.1.0" 3), .plan, .commit, .finish]

def fanOutToHolder : List (NotifierEvent ℕ) := [.start, .plan, .commit, .finish]

/-- A breaking revision that another replaced is still told. -/
theorem replaced_revision_is_told : ∃ s,
    oneHolder.run bodyOf (threeRevisions 1 ++ fanOutToHolder) = some s ∧ Told 3 s.news s.notices := by
  have hquiet : ∀ event ∈ threeRevisions 1 ++ fanOutToHolder, Undisturbed 3 event := by
    simp [threeRevisions, fanOutToHolder, Undisturbed]
  have hfair : Along bodyOf (StepFair 3) oneHolder (threeRevisions 1 ++ fanOutToHolder) := by
    refine Along.cons (worded_of_none (by decide)) rfl ?_
    refine Along.cons trivial rfl ?_
    refine Along.cons (worded_of_none (by decide)) rfl ?_
    refine Along.cons (worded_of_none (by decide)) rfl ?_
    refine Along.cons trivial rfl ?_
    refine Along.cons trivial rfl ?_
    refine Along.cons ?_ rfl ?_
    · intro lane run hlane hrun
      obtain rfl := Option.some_inj.mp hlane
      obtain rfl := Option.some_inj.mp hrun
      decide
    refine Along.cons trivial rfl ?_
    refine Along.cons trivial rfl ?_
    refine Along.cons trivial rfl ?_
    refine Along.cons ?_ rfl trivial
    intro lane run hlane hrun
    obtain rfl := Option.some_inj.mp hlane
    exact absurd hrun.symm (Option.some_ne_none run)
  exact ⟨_, rfl, grantee_is_told bodyOf idle_oneHolder hquiet hfair rfl rfl⟩

/-- An account that is told of a breaking revision has it marked. -/
theorem Told.breaking {news : List (Revision U)} (h : Told user news notices)
    (hr : r ∈ newsFor user news) (hrisk : reportRisk r.entry.report = .breaking) :
    ∃ row, unreadOf notices user = [row] ∧ titleRisk row.content.title = .breaking := by
  unfold Told at h
  rw [if_neg (List.ne_nil_of_mem hr)] at h
  obtain ⟨row, hrow, hmarked⟩ := h
  rw [if_pos (List.any_eq_true.mpr ⟨r, hr, decide_eq_true hrisk⟩)] at hmarked
  exact ⟨row, hrow, hmarked⟩

/-- When the account itself publishes last, it is not told of the breaking revision before. -/
theorem replaced_revision_is_hidden : ∃ s,
    Idle 3 oneHolder ∧ (∀ event ∈ threeRevisions 3 ++ [.start, .finish], Undisturbed 3 event) ∧
      oneHolder.run bodyOf (threeRevisions 3 ++ [.start, .finish]) = some s ∧ s.lane = none ∧
        ¬Told 3 s.news s.notices := by
  let first : FanOut ℕ := askedFor 1 "Orders" (addition "1.1.0" 1) none
  obtain ⟨s, hrun, hlane, hnews, hnotices⟩ : ∃ s,
      oneHolder.run bodyOf (threeRevisions 3 ++ [.start, .finish]) = some s ∧ s.lane = none ∧
        s.news = [⟨1, addition "1.1.0" 1⟩, ⟨2, removal "2.0.0" 2⟩, ⟨3, addition "2.1.0" 3⟩] ∧
          s.notices = sendBatch bodyOf first [3] [] := ⟨_, rfl, rfl, rfl, rfl⟩
  refine ⟨s, idle_oneHolder, by simp [threeRevisions, Undisturbed], hrun, hlane, fun htold => ?_⟩
  have hmem : (⟨2, removal "2.0.0" 2⟩ : Revision ℕ) ∈ newsFor 3 s.news := by
    rw [hnews, mem_newsFor]
    simp
  obtain ⟨row, hrow, hmarked⟩ := htold.breaking hmem (by decide)
  obtain ⟨told, htoldRow, hrisk⟩ := @unreadOf_sendBatch_fresh ℕ _ 3 bodyOf first [3] []
    (List.nodup_singleton 3) List.mem_cons_self rfl
  rw [hnotices, htoldRow] at hrow
  obtain rfl := List.singleton_inj.mp hrow
  rw [hrisk, titleRisk_summary] at hmarked
  exact absurd hmarked (by decide)

end FerrumNexus.Publishing.SpecNotices
