import FerrumNexus.Publishing.SpecChanges

/-!
# Telling grantees that a specification changed

Every revision of an API that is news asks for a fan-out. Fan-outs of one API
run one at a time; one that is asked for while another runs waits, and replaces
the one that waits already, whose revisions it stands for from then on. A
fan-out goes through the accounts with an active grant in batches, all but the
account that asked for it. An account that has an unread notice is not given
another: the one it has is rewritten, and what its title says about risk is read
back from the title.
-/
namespace FerrumNexus.Publishing.SpecNotices

open Platform SpecChanges

/-! ## Notices -/

def BREAKING_TITLE_MARK : String := " (breaking changes)"

def INCOMPLETE_TITLE_MARK : String := " (could not fully compare)"

/-- `EarlierRisk`: `false`, `'incomplete'` or `true`. -/
inductive EarlierRisk
  | none
  | incomplete
  | breaking
  deriving DecidableEq

def endsWith (text mark : String) : Bool := decide (mark.toList <:+ text.toList)

/-- `text.slice(0, -mark.length)`. -/
def dropEnd (text mark : String) : String :=
  String.ofList (text.toList.take (text.toList.length - mark.toList.length))

def titleRisk (title : String) : EarlierRisk :=
  if endsWith title BREAKING_TITLE_MARK then .breaking
  else if endsWith title INCOMPLETE_TITLE_MARK then .incomplete
  else .none

def isControlOrLineSeparator (c : Char) : Bool :=
  c.toNat ≤ 0x1F || c.toNat == 0x7F || c.toNat == 0x2028 || c.toNat == 0x2029

/-- `text.replace(CONTROL_OR_LINE_SEPARATOR_RUN, ' ')`. -/
def replaceControlRuns : List Char → List Char
  | [] => []
  | c :: rest =>
    if isControlOrLineSeparator c then
      if rest.head?.any isControlOrLineSeparator then replaceControlRuns rest
      else ' ' :: replaceControlRuns rest
    else c :: replaceControlRuns rest

def oneLine (text : String) : String :=
  clipped (trim (String.ofList (replaceControlRuns text.toList)))

/-- `ApiSpecChangeEntry`, as far as a notice names it. -/
structure ApiSpecChangeEntry where
  revisionId : ℕ
  rollback : Bool
  version : String
  report : SpecChangeReport

def specChangeIsNews (report : SpecChangeReport) : Bool := report.changed || !report.complete

def specChangeIsBreaking (report : SpecChangeReport) : Bool :=
  decide (0 < report.counts.breaking) || !report.complete

structure SpecChangeNotice where
  headline : String
  title : String
  breaking : Bool
  body : String
  deriving DecidableEq

/-- The title of a notice without its mark. -/
def bareTitle (apiName : String) (entry : ApiSpecChangeEntry) : String :=
  oneLine apiName ++ " spec " ++ ((if entry.rollback then "rolled back to" else "updated to") ++ " " ++
    oneLine entry.version)

def titleMark (report : SpecChangeReport) : String :=
  if 0 < report.counts.breaking then BREAKING_TITLE_MARK
  else if specChangeIsBreaking report then INCOMPLETE_TITLE_MARK
  else ""

/-- `summarizeSpecChange`. `describe` is what the body says of a report. -/
def summarizeSpecChange (describe : SpecChangeReport → String) (apiName : String)
    (entry : ApiSpecChangeEntry) : SpecChangeNotice where
  headline := (if entry.rollback then "rolled back to" else "updated to") ++ " " ++
    oneLine entry.version
  title := bareTitle apiName entry ++ titleMark entry.report
  breaking := specChangeIsBreaking entry.report
  body := describe entry.report

/-- A title and a body. -/
structure NoticeContent where
  title : String
  body : String
  deriving DecidableEq

def rewrittenNotice (notice : SpecChangeNotice) (earlier : EarlierRisk) : NoticeContent :=
  let own := titleRisk notice.title
  let bare := if own = .incomplete then dropEnd notice.title INCOMPLETE_TITLE_MARK else notice.title
  if earlier = .breaking ∧ own ≠ .breaking then
    ⟨bare ++ BREAKING_TITLE_MARK,
      notice.body ++ " An earlier revision since you last read included breaking changes; " ++
        "see the Changes tab."⟩
  else if earlier = .incomplete ∧ own = .none then
    ⟨notice.title ++ INCOMPLETE_TITLE_MARK,
      notice.body ++ " An earlier revision since you last read could not be fully compared " ++
        "and may include breaking changes; see the Changes tab."⟩
  else
    ⟨notice.title,
      notice.body ++ " Earlier revisions since you last read are on the Changes tab too."⟩

/-! ## Fan-outs -/

/-- A revision as somebody published it. -/
structure Revision (U : Type) where
  actor : U
  entry : ApiSpecChangeEntry

/-- A fan-out asked for. `replaced` is history: the revisions of the fan-outs that it took the place
of. -/
structure FanOut (U : Type) where
  actor : U
  apiName : String
  change : ApiSpecChangeEntry
  supersededIds : List ℕ
  supersededBreaking : Bool
  supersededIncomplete : Bool
  replaced : List (Revision U)

variable {U : Type}

/-- The revisions that a fan-out stands for. -/
def FanOut.revisions (run : FanOut U) : List (Revision U) := run.replaced ++ [⟨run.actor, run.change⟩]

/-- A fan-out that is asked for, with what `carriedFrom` hands on to it. -/
def askedFor (actor : U) (apiName : String) (change : ApiSpecChangeEntry)
    (previous : Option (FanOut U)) : FanOut U :=
  match previous with
  | none => ⟨actor, apiName, change, [], false, false, []⟩
  | some previous =>
    ⟨actor, apiName, change, previous.supersededIds ++ [previous.change.revisionId],
      previous.supersededBreaking || decide (0 < previous.change.report.counts.breaking),
      previous.supersededIncomplete || !previous.change.report.complete, previous.revisions⟩

/-- What a fan-out carries into every notice it writes. -/
def carried (run : FanOut U) (own : EarlierRisk) : EarlierRisk :=
  if run.supersededBreaking ∧ own ≠ .breaking then .breaking
  else if run.supersededIncomplete ∧ own = .none then .incomplete
  else .none

/-- A row of `notifications` of the API's history. -/
structure Notification (U : Type) where
  user : U
  content : NoticeContent
  unread : Bool

/-- Who has an active grant, by each grant, which accounts are active, and which of them want the
notice. -/
structure Accounts (U : Type) where
  grants : List U
  active : U → Bool
  wantsInApp : U → Bool

/-- How far a fan-out is: the batches that are left, and who of the first is to be told once that is
planned. -/
inductive Stage (U : Type)
  | starting
  | sending (planned : Option (List U)) (batches : List (List U))

structure Lane (U : Type) where
  running : FanOut U
  stage : Stage U
  waiting : Option (FanOut U)

/-- The lane of an API, the accounts, and the notices. `news` is history: the revisions that were
news. -/
structure NotifierState (U : Type) where
  accounts : Accounts U
  notices : List (Notification U)
  lane : Option (Lane U)
  stopping : Bool
  news : List (Revision U)

def SPEC_CHANGE_NOTICE_BATCH : ℕ := 200

/-- A list in slices. -/
def slices : ℕ → List U → List (List U)
  | 0, _ => []
  | fuel + 1, users =>
    if users = [] then []
    else users.take SPEC_CHANGE_NOTICE_BATCH :: slices fuel (users.drop SPEC_CHANGE_NOTICE_BATCH)

variable [DecidableEq U]

/-- The accounts a fan-out is for, once each. -/
def recipients (accounts : Accounts U) (actor : U) : List U :=
  accounts.grants.eraseDups.filter fun user => user ≠ actor

/-- `planBatch`: who of a batch is to be told in the portal, and whether anybody is to be told. -/
def planBatch (accounts : Accounts U) (ids : List U) : Option (List U) :=
  let users := ids.filter fun user => accounts.grants.contains user && accounts.active user
  if users = [] then none else some (users.filter accounts.wantsInApp)

/-- `worst`, of two risks. -/
def worst (current row : EarlierRisk) : EarlierRisk :=
  if current = .breaking ∨ row = .breaking then .breaking
  else if current = .incomplete ∨ row = .incomplete then .incomplete
  else .none

/-- The unread notices of an account. -/
def unreadOf (notices : List (Notification U)) (user : U) : List (Notification U) :=
  notices.filter fun row => row.unread && row.user == user

/-- What a batch writes. -/
def sendBatch (describe : SpecChangeReport → String) (run : FanOut U) (inApp : List U)
    (notices : List (Notification U)) : List (Notification U) :=
  let notice := summarizeSpecChange describe run.apiName run.change
  let carriedRisk := carried run (titleRisk notice.title)
  let freshContent : NoticeContent :=
    if carriedRisk = .none then ⟨notice.title, notice.body⟩ else rewrittenNotice notice carriedRisk
  let risk (user : U) : EarlierRisk :=
    (unreadOf notices user).foldl (fun current row => worst current (titleRisk row.content.title))
      carriedRisk
  let fresh := inApp.filter fun user => unreadOf notices user = []
  (notices.map fun row =>
      if row.unread && inApp.contains row.user then
        { row with content := rewrittenNotice notice (risk row.user) }
      else row) ++
    fresh.map fun user => ⟨user, freshContent, true⟩

/-- What can happen. `start` reads the grants, `plan` a batch's accounts, and `commit` is its
transaction. -/
inductive NotifierEvent (U : Type)
  | notify (actor : U) (apiName : String) (change : ApiSpecChangeEntry)
  | start
  | plan
  | commit
  | fail
  | finish
  | change (accounts : Accounts U)
  | read (user : U)
  | stop

/-- What the lane goes on to after a fan-out. -/
def nextLane (stopping : Bool) : Option (FanOut U) → Option (Lane U)
  | none => none
  | some run => if stopping then none else some ⟨run, .starting, none⟩

def NotifierState.step (describe : SpecChangeReport → String) (s : NotifierState U) :
    NotifierEvent U → Option (NotifierState U)
  | .notify actor apiName change =>
    if ¬specChangeIsNews change.report ∨ s.stopping then some s
    else
      let s : NotifierState U := { s with news := s.news ++ [⟨actor, change⟩] }
      match s.lane with
      | none => some { s with lane := some ⟨askedFor actor apiName change none, .starting, none⟩ }
      | some lane => some
        { s with lane := some { lane with waiting := some (askedFor actor apiName change lane.waiting) } }
  | .start =>
    match s.lane with
    | some ⟨run, .starting, waiting⟩ =>
      let users := recipients s.accounts run.actor
      some { s with lane := some ⟨run, .sending none (slices users.length users), waiting⟩ }
    | _ => none
  | .plan =>
    match s.lane with
    | some ⟨run, .sending none (ids :: batches), waiting⟩ =>
      if s.stopping then some { s with lane := some ⟨run, .sending none [], waiting⟩ }
      else match planBatch s.accounts ids with
        | none => some { s with lane := some ⟨run, .sending none batches, waiting⟩ }
        | some inApp =>
          some { s with lane := some ⟨run, .sending (some inApp) (ids :: batches), waiting⟩ }
    | _ => none
  | .commit =>
    match s.lane with
    | some ⟨run, .sending (some inApp) (_ :: batches), waiting⟩ => some
      { s with
        notices := sendBatch describe run inApp s.notices
        lane := some ⟨run, .sending none batches, waiting⟩ }
    | _ => none
  | .fail =>
    match s.lane with
    | some ⟨run, .sending _ (_ :: batches), waiting⟩ =>
      some { s with lane := some ⟨run, .sending none batches, waiting⟩ }
    | _ => none
  | .finish =>
    match s.lane with
    | some ⟨_, .sending none [], waiting⟩ => some { s with lane := nextLane s.stopping waiting }
    | _ => none
  | .change accounts => some { s with accounts := accounts }
  | .read user => some
    { s with notices := s.notices.map fun row =>
        if row.user = user then { row with unread := false } else row }
  | .stop => some { s with stopping := true }

def NotifierState.run (describe : SpecChangeReport → String) (s : NotifierState U)
    (events : List (NotifierEvent U)) : Option (NotifierState U) :=
  events.foldlM (fun s event => s.step describe event) s

/-! ## What a title is to say -/

/-- The risk of a revision. -/
def reportRisk (report : SpecChangeReport) : EarlierRisk :=
  if 0 < report.counts.breaking then .breaking
  else if ¬report.complete then .incomplete
  else .none

/-- The news that an account did not publish itself. -/
def newsFor (user : U) (news : List (Revision U)) : List (Revision U) :=
  news.filter fun revision => revision.actor ≠ user

/-- One unread notice, marked breaking if a revision was, and otherwise as not fully compared if one
could not be; none if there was no revision. -/
def Told (user : U) (news : List (Revision U)) (notices : List (Notification U)) : Prop :=
  if newsFor user news = [] then unreadOf notices user = []
  else ∃ row, unreadOf notices user = [row] ∧
    if (newsFor user news).any fun revision => reportRisk revision.entry.report = .breaking then
      titleRisk row.content.title = .breaking
    else if (newsFor user news).any fun revision =>
        reportRisk revision.entry.report = .incomplete then
      titleRisk row.content.title = .incomplete
    else True

end FerrumNexus.Publishing.SpecNotices
