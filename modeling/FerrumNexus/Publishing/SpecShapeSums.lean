import FerrumNexus.Publishing.SpecShapeBounds

/-!
# No sum of the walk is rounded
-/
namespace FerrumNexus.Publishing.SpecShape

open OpenApi Platform Graphs CompletedSize

/-- A code unit stands for at most three bytes. -/
theorem utf8Size_le (c : Char) : c.utf8Size ≤ 3 * if 0xFFFF < c.toNat then 2 else 1 := by
  by_cases hplane : 0xFFFF < c.toNat
  · have hfour := c.utf8Size_le_four
    rw [if_pos hplane]
    omega
  · have hvalue : c.val ≤ 0xFFFF := UInt32.le_iff_toNat_le.mpr (Nat.not_lt.mp hplane)
    rw [if_neg hplane, Char.utf8Size]
    split_ifs with hone htwo hthree
    · omega
    · omega
    · omega
    · exact absurd hvalue hthree

theorem utf8ByteSize_le (text : String) : text.utf8ByteSize ≤ 3 * utf16Length text := by
  have hfold (cs : List Char) (n : ℕ) :
      cs.foldl (fun n c => n + if 0xFFFF < c.toNat then 2 else 1) n =
        n + cs.foldl (fun n c => n + if 0xFFFF < c.toNat then 2 else 1) 0 := by
    induction cs generalizing n with
    | nil => simp
    | cons c cs ih =>
      rw [List.foldl_cons, List.foldl_cons, ih, ih (0 + _)]
      omega
  obtain ⟨cs, rfl⟩ : ∃ cs, text = String.ofList cs := ⟨text.toList, by simp⟩
  unfold utf16Length
  rw [String.toList_ofList]
  induction cs with
  | nil => simp
  | cons c cs ih =>
    have hchar := utf8Size_le c
    rw [List.foldl_cons, hfold, String.ofList_cons, String.utf8ByteSize_append,
      String.utf8ByteSize_singleton]
    omega


theorem lines_le (contentType : ContentType) (text : String) :
    lines contentType text ≤ 1 + utf16Length text := by
  cases contentType with
  | json => exact Nat.le_add_right 1 _
  | yaml =>
    have hcount (cs : List Char) (n : ℕ) : n + cs.count '\n' ≤
        cs.foldl (fun n c => n + if 0xFFFF < c.toNat then 2 else 1) n := by
      induction cs generalizing n with
      | nil => simp
      | cons c cs ih =>
        have hrest := ih (n + if 0xFFFF < c.toNat then 2 else 1)
        rw [List.foldl_cons, List.count_cons]
        split_ifs at hrest ⊢ <;> omega
    have := hcount text.toList 0
    simp only [lines, utf16Length]
    omega

/-! ## Parsed documents -/

def textLength {ι : Type} : Value ι → ℕ
  | .string s => utf16Length s
  | .number text => utf16Length (numberString text)
  | _ => 0

/-- A document as the parse builds it: every text is a string of the runtime. -/
structure ParsedDocument (ι : Type) extends Document ι where
  keys_fit : ∀ id, ∀ key ∈ chargedKeys toDocument id, utf16Length key ≤ MAX_STRING_LENGTH
  values_fit : ∀ id, ∀ value ∈ values toDocument id, textLength value ≤ MAX_STRING_LENGTH

variable {ι : Type} {contentType : ContentType} (arith : Arithmetic)

namespace Arithmetic

variable {arith}

theorem add_eq {m n : ℕ} (h : m + n ≤ 2 ^ 53) : arith.add m n = m + n := arith.round_eq _ h

theorem mul_eq {m n : ℕ} (h : m * n ≤ 2 ^ 53) : arith.mul m n = m * n := arith.round_eq _ h

end Arithmetic

open Arithmetic

theorem stringIndentItems_eq {text : String} (h : utf16Length text ≤ MAX_STRING_LENGTH) :
    stringIndentItems arith contentType text = lines contentType text := by
  cases contentType with
  | json => rfl
  | yaml =>
    have hcount (cs : List Char) (n : ℕ) (hn : n + cs.count '\n' ≤ 2 ^ 53) :
        cs.foldl (fun items c => if c = '\n' then arith.add items 1 else items) n =
          n + cs.count '\n' := by
      induction cs generalizing n with
      | nil => simp
      | cons c cs ih =>
        rw [List.foldl_cons, List.count_cons] at *
        by_cases hc : c = '\n'
        · rw [if_pos hc]
          simp only [hc, beq_self_eq_true, if_true] at hn ⊢
          rw [add_eq (by omega), ih _ (by omega)]
          omega
        · simp only [hc, if_false, beq_iff_eq] at hn ⊢
          rw [ih _ (by omega)]
          omega
    have hlines := lines_le .yaml text
    rw [MAX_STRING_LENGTH] at h
    exact hcount text.toList 1 (by simp only [lines] at hlines; omega)

/-- A charge of texts the runtime can hold, on a frame that is within the limit. -/
theorem charge_eq (bytes items : ℕ) {frame : Frame ι} {total : ℕ} (hprice : frame.price ≤ total)
    (htotal : total ≤ MAX_SPEC_EXPANDED_BYTES) (hdepth : frame.depth ≤ MAX_SPEC_DEPTH)
    (hbytes : bytes ≤ 2 ^ 31) (hitems : items ≤ 2 ^ 31) :
    charge arith frame total bytes items = charge .unbounded frame total bytes items := by
  have hlimit : MAX_SPEC_EXPANDED_BYTES = 2 ^ 22 := rfl
  have hlevels : MAX_SPEC_DEPTH = 200 := rfl
  obtain ⟨hframe, hcharged, -⟩ := le_atDepth frame.depth frame.size
  have hframeBytes : frame.bytes ≤ frame.price := hframe
  have hframeItems : 4 * frame.chargedItems ≤ frame.price := hcharged
  have hindent : items * (2 * (frame.depth - 1) + 4) ≤ 2 ^ 31 * 2 ^ 9 :=
    Nat.mul_le_mul hitems (by omega)
  have hlevel : arith.add (arith.mul 2 (frame.depth - 1)) 4 = 2 * (frame.depth - 1) + 4 := by
    rw [mul_eq (by omega), add_eq (by omega)]
  have hproduct : arith.mul items (arith.add (arith.mul 2 (frame.depth - 1)) 4) =
      items * (2 * (frame.depth - 1) + 4) := by
    rw [hlevel, mul_eq (by omega)]
  have hbytesSum : arith.add frame.bytes bytes = frame.bytes + bytes := add_eq (by omega)
  have hitemsSum : arith.add frame.chargedItems items = frame.chargedItems + items :=
    add_eq (by omega)
  have hcharge : arith.add bytes (items * (2 * (frame.depth - 1) + 4)) =
      bytes + items * (2 * (frame.depth - 1) + 4) := add_eq (by omega)
  have htotalSum : arith.add total (bytes + items * (2 * (frame.depth - 1) + 4)) =
      total + (bytes + items * (2 * (frame.depth - 1) + 4)) := add_eq (by omega)
  simp only [charge]
  rw [hproduct, hcharge, htotalSum, hbytesSum, hitemsSum]
  rfl

/-- The keys of a node, on a frame that is within the limit. -/
theorem chargeKeys_eq {keys : List String}
    (hkeys : ∀ key ∈ keys, utf16Length key ≤ MAX_STRING_LENGTH) {frame : Frame ι} {total : ℕ}
    (hprice : frame.price ≤ total) (htotal : total ≤ MAX_SPEC_EXPANDED_BYTES)
    (hdepth : frame.depth ≤ MAX_SPEC_DEPTH) :
    chargeKeys arith contentType keys frame total =
      chargeKeys .unbounded contentType keys frame total := by
  induction keys generalizing frame total with
  | nil => rfl
  | cons key keys ih =>
    have hkey := hkeys key List.mem_cons_self
    have hbytes := utf8ByteSize_le key
    have hlines := lines_le contentType key
    have hshort : utf16Length key ≤ 2 ^ 29 := hkey.trans (by decide)
    have hcharge := charge_eq arith key.utf8ByteSize (lines contentType key) hprice htotal hdepth
      (by omega) (by omega)
    rw [chargeKeys, chargeKeys, stringIndentItems_eq arith hkey, stringIndentItems_unbounded,
      hcharge, charge_unbounded]
    split_ifs with hlimit
    · rfl
    · exact ih (fun other hother => hkeys other (List.mem_cons_of_mem _ hother))
        (by rw [Frame.price_plus]; omega) (Nat.not_lt.mp hlimit) (by exact hdepth)

/-- A size within the limit, charged from the memo. -/
theorem chargeCompleted_eq {walk : Walk ι} {frame : Frame ι} {below : List (Frame ι)} {size : CompletedSize}
    (hprice : frame.price ≤ walk.total) (htotal : walk.total ≤ MAX_SPEC_EXPANDED_BYTES)
    (hdepth : frame.depth ≤ MAX_SPEC_DEPTH) (hsize : atDepth 1 size ≤ MAX_SPEC_EXPANDED_BYTES) :
    chargeCompleted arith walk frame below size = chargeCompleted .unbounded walk frame below size := by
  have hlimit : MAX_SPEC_EXPANDED_BYTES = 2 ^ 22 := rfl
  have hlevels : MAX_SPEC_DEPTH = 200 := rfl
  obtain ⟨hsizeBytes, hsizeItems, hsizeDepths⟩ := le_atDepth 1 size
  obtain ⟨hframe, hcharged, hrelative⟩ := le_atDepth frame.depth frame.size
  have hframeBytes : frame.bytes ≤ frame.price := hframe
  have hframeItems : 4 * frame.chargedItems ≤ frame.price := hcharged
  have hframeDepths : 2 * frame.relativeDepths ≤ frame.price := hrelative
  have hindent : size.chargedItems * (2 * frame.depth + 4) ≤ 2 ^ 22 * 2 ^ 9 :=
    Nat.mul_le_mul (by omega) (by omega)
  have hproduct : arith.mul size.chargedItems (arith.add (arith.mul 2 frame.depth) 4) =
      size.chargedItems * (2 * frame.depth + 4) := by
    rw [mul_eq (m := 2) (by omega), add_eq (by omega), mul_eq (by omega)]
  have htwice : arith.mul 2 size.relativeDepths = 2 * size.relativeDepths := mul_eq (by omega)
  have hbytes : arith.add size.bytes (size.chargedItems * (2 * frame.depth + 4)) =
      size.bytes + size.chargedItems * (2 * frame.depth + 4) := add_eq (by omega)
  have hcharge : arith.add (size.bytes + size.chargedItems * (2 * frame.depth + 4))
      (2 * size.relativeDepths) = size.bytes + size.chargedItems * (2 * frame.depth + 4) +
        2 * size.relativeDepths := add_eq (by omega)
  have htotalSum : arith.add walk.total (size.bytes +
      size.chargedItems * (2 * frame.depth + 4) + 2 * size.relativeDepths) = walk.total +
        (size.bytes + size.chargedItems * (2 * frame.depth + 4) + 2 * size.relativeDepths) :=
    add_eq (by omega)
  have hframeSum : arith.add frame.bytes size.bytes = frame.bytes + size.bytes :=
    add_eq (by omega)
  have hitemsSum : arith.add frame.chargedItems size.chargedItems =
      frame.chargedItems + size.chargedItems := add_eq (by omega)
  have hdeeper : arith.add size.relativeDepths size.chargedItems =
      size.relativeDepths + size.chargedItems := add_eq (by omega)
  have hdepthsSum : arith.add frame.relativeDepths (size.relativeDepths + size.chargedItems) =
      frame.relativeDepths + (size.relativeDepths + size.chargedItems) := add_eq (by omega)
  simp only [chargeCompleted]
  rw [hproduct, htwice, hbytes, hcharge, htotalSum, hframeSum, hitemsSum, hdeeper, hdepthsSum]
  rfl

theorem scalarItems_eq (contentType : ContentType) {value : Value ι} (h : textLength value ≤ MAX_STRING_LENGTH) :
    scalarItems arith contentType value = scalarItems .unbounded contentType value := by
  cases value with
  | string s => exact (stringIndentItems_eq arith h).trans (stringIndentItems_unbounded _ s).symm
  | _ => rfl

theorem scalar_le (contentType : ContentType) {value : Value ι} (h : textLength value ≤ MAX_STRING_LENGTH) :
    scalarBytes value ≤ 2 ^ 31 ∧ scalarItems .unbounded contentType value ≤ 2 ^ 31 := by
  have hshort : textLength value ≤ 2 ^ 29 := h.trans (by decide)
  cases value with
  | string s =>
    have hbytes := utf8ByteSize_le s
    have hlines := lines_le contentType s
    simp only [textLength] at hshort
    simp only [scalarBytes, scalarItems, stringIndentItems_unbounded]
    omega
  | bool b => cases b <;> simp [scalarBytes, scalarItems]
  | number text =>
    simp only [textLength] at hshort
    simp only [scalarBytes, scalarItems]
    omega
  | _ => simp [scalarBytes, scalarItems]

section Rounds

variable [DecidableEq ι] {doc : ParsedDocument ι} {root : ι} {walk : Walk ι}

theorem push_eq {id : ι} {depth : ℕ} (htotal : walk.total ≤ MAX_SPEC_EXPANDED_BYTES) :
    push arith doc.toDocument contentType walk id depth =
      push .unbounded doc.toDocument contentType walk id depth := by
  unfold push
  by_cases hdepth : MAX_SPEC_DEPTH < depth
  · rw [if_pos hdepth, if_pos hdepth]
  · have hzero : (newFrame doc.toDocument id depth).price = 0 := by
      simp [Frame.price, Frame.size, newFrame, atDepth_apply]
    rw [chargeKeys_eq arith (doc.keys_fit id) (by omega) htotal (Nat.not_lt.mp hdepth)]

theorem complete_eq {frame : Frame ι} {below : List (Frame ι)}
    (hprices : prices (frame :: below) ≤ MAX_SPEC_EXPANDED_BYTES) :
    complete arith walk frame below = complete .unbounded walk frame below := by
  cases below with
  | nil => rfl
  | cons parent rest =>
    have hlimit : MAX_SPEC_EXPANDED_BYTES = 2 ^ 22 := rfl
    have hsmall (f : Frame ι) (hf : f.price ≤ MAX_SPEC_EXPANDED_BYTES) :
        f.bytes ≤ 2 ^ 22 ∧ f.chargedItems ≤ 2 ^ 22 ∧ f.relativeDepths ≤ 2 ^ 22 := by
      obtain ⟨hbytes, hitems, hdepths⟩ := le_atDepth f.depth f.size
      have hfBytes : f.bytes ≤ f.price := hbytes
      have hfItems : 4 * f.chargedItems ≤ f.price := hitems
      have hfDepths : 2 * f.relativeDepths ≤ f.price := hdepths
      omega
    rw [prices_cons, prices_cons] at hprices
    obtain ⟨hbytes, hitems, hdepths⟩ := hsmall frame (by omega)
    obtain ⟨hparentBytes, hparentItems, hparentDepths⟩ := hsmall parent (by omega)
    simp only [complete]
    rw [add_eq (m := parent.bytes) (by omega), add_eq (m := parent.chargedItems) (by omega),
      add_eq (m := frame.relativeDepths) (by omega), add_eq (m := parent.relativeDepths) (by omega)]
    rfl

theorem descend_eq {frame : Frame ι} {below : List (Frame ι)} {child : ι}
    (hkept : Kept doc.toDocument contentType { walk with pending := frame :: below })
    (hprice : frame.price ≤ walk.total) (hdepth : frame.depth ≤ MAX_SPEC_DEPTH) :
    descend arith doc.toDocument contentType walk frame below child =
      descend .unbounded doc.toDocument contentType walk frame below child := by
  unfold descend
  cases hheight : walk.completedHeights child with
  | none =>
    simp only
    rw [push_eq arith (by exact hkept.limit)]
  | some height =>
    obtain ⟨tree, -, -, hsize, hbytes⟩ := hkept.memo child height hheight
    rw [expandedBytes_eq] at hbytes
    simp only [show walk.completedSizes child = _ from hsize]
    rw [chargeCompleted_eq arith (by exact hprice) (by exact hkept.limit) (by exact hdepth) hbytes]

/-- No round rounds anything. -/
theorem turn_eq (h : Sound doc.toDocument contentType root walk) :
    turn arith doc.toDocument contentType walk = turn .unbounded doc.toDocument contentType walk := by
  cases hpending : walk.pending with
  | nil => simp [turn, hpending]
  | cons frame below =>
    have hstack := h.stack
    rw [hpending] at hstack
    obtain ⟨haccounts, -, htotal⟩ := hstack
    have hprice : frame.price ≤ walk.total := htotal ▸ price_le_prices List.mem_cons_self
    have hdepth : frame.depth ≤ MAX_SPEC_DEPTH := Nat.le_of_add_right_le haccounts.within
    cases hchild : frame.children[frame.childIndex]? with
    | none =>
      simp only [turn, hpending, hchild]
      rw [complete_eq arith (htotal ▸ h.limit)]
    | some value =>
      have hfit := doc.values_fit frame.value value
        (haccounts.children ▸ List.mem_of_getElem? hchild)
      have hnext : frame.next.price ≤ walk.total := hprice
      obtain ⟨hbytes, hlines⟩ := scalar_le contentType hfit
      have hcharge := charge_eq arith (scalarBytes value) (scalarItems .unbounded contentType value)
        hnext h.limit hdepth hbytes hlines
      have hitems := scalarItems_eq arith contentType hfit
      unfold turn
      simp only [hpending, hchild]
      cases value with
      | node child =>
        obtain ⟨key, hmember⟩ := getElem?_values doc.toDocument (haccounts.children ▸ hchild)
        have hmem : (key, Value.node child) ∈ contents doc.toDocument frame.next.value :=
          List.mem_of_getElem? hmember
        have hitem : chargeItem arith doc.toDocument frame.next walk.total =
            chargeItem .unbounded doc.toDocument frame.next walk.total := by
          unfold chargeItem
          rw [charge_eq arith 0 1 hnext h.limit hdepth (by omega) (by omega)]
        simp only [enter]
        rw [hitem, charge_item contentType hmem h.limit]
        split_ifs with hlimit
        · rfl
        · refine descend_eq arith ?_ ?_ hdepth
          · exact h.toKept.replace hpending rfl (Nat.not_lt.mp hlimit)
          · rw [Frame.price_plus]
            exact Nat.add_le_add_right hprice _
      | _ =>
        simp only
        rw [hitems, hcharge]

theorem turns_eq (h : Sound doc.toDocument contentType root walk) (n : ℕ) :
    turns arith doc.toDocument contentType n walk =
      turns .unbounded doc.toDocument contentType n walk := by
  induction n generalizing walk with
  | zero => rfl
  | succ n ih =>
    unfold turns
    rw [turn_eq arith h]
    cases hturn : turn .unbounded doc.toDocument contentType walk with
    | error refusal => rfl
    | ok next =>
      simp only [bind, Except.bind]
      rw [ih (h.turn hturn)]

/-- The sums of the walk are exact: after any number of rounds it is where it
would be if no number were ever rounded. -/
theorem after_eq (n : ℕ) :
    after arith doc.toDocument contentType root n =
      after .unbounded doc.toDocument contentType root n := by
  have hstart : start arith doc.toDocument contentType root =
      start .unbounded doc.toDocument contentType root := push_eq arith (Nat.zero_le _)
  unfold after
  rw [hstart]
  cases hwalk : start .unbounded doc.toDocument contentType root with
  | error refusal => rfl
  | ok walk => exact turns_eq arith (Sound.start hwalk) n

end Rounds

end FerrumNexus.Publishing.SpecShape
