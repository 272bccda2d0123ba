import LayoutLint.Proofs.Syntax.Tables
/-!
# Balanced — brackets that come in pairs

Between brackets that come in pairs the scan for partners ends with the same brackets open as it started with
(`BracketScan.opened_run_of_balanced`). So a pair of brackets with balanced ones between them belongs together
(`Outline.closing?_of_balanced`), and the partners of the brackets in a balanced run of tokens are in the run
(`Outline.partner_of_balanced`). What a scan that counts brackets sees is the items outside of them (`outside`).
-/
namespace LayoutLint

theorem isOpener_eq (text : String) : isOpener text = ["(", "[", "\x7b"].contains text := by
  simp only [isOpener, List.contains_cons, List.contains_nil, Bool.or_false, Bool.or_assoc]

theorem isSome_openerOf (text : String) : (openerOf text).isSome = [")", "]", "\x7d"].contains text := by
  unfold openerOf
  split <;> simp_all

/-- Items whose brackets come in pairs: of one shape, around items whose brackets come in pairs again. -/
inductive Balanced {α : Type} (text : α → String) : List α → Prop
  | nil : Balanced text []
  | word {a : α} {as : List α} (opens : isOpener (text a) = false) (closes : openerOf (text a) = none)
      (rest : Balanced text as) : Balanced text (a :: as)
  | block {a c : α} {as bs : List α} (opens : isOpener (text a) = true) (closes : openerOf (text c) = some (text a))
      (inner : Balanced text as) (rest : Balanced text bs) : Balanced text (a :: (as ++ c :: bs))

namespace Balanced

variable {α β : Type} {f : α → String} {g : β → String}

theorem append {as bs : List α} (ha : Balanced f as) (hb : Balanced f bs) : Balanced f (as ++ bs) := by
  induction ha with
  | nil => exact hb
  | word opens closes _ ih => exact .word opens closes ih
  | block opens closes inner _ _ ih =>
    rw [List.cons_append, List.append_assoc, List.cons_append]
    exact .block opens closes inner ih

/-- Only the texts count. -/
theorem congr {as : List α} (h : Balanced f as) : ∀ {bs : List β}, bs.map g = as.map f → Balanced g bs := by
  induction h with
  | nil => exact fun {bs} h => List.map_eq_nil_iff.1 h ▸ .nil
  | word opens closes _ ih =>
    intro bs h
    obtain ⟨b, bs, rfl, hb, hbs⟩ := List.map_eq_cons_iff.1 h
    exact .word (hb ▸ opens) (hb ▸ closes) (ih hbs)
  | block opens closes _ _ ihInner ihRest =>
    intro bs h
    obtain ⟨b, bs, rfl, hb, h⟩ := List.map_eq_cons_iff.1 h
    rw [List.map_append, List.map_cons] at h
    obtain ⟨inner, bs, rfl, hinner, h⟩ := List.map_eq_append_iff.1 h
    obtain ⟨c, rest, rfl, hc, hrest⟩ := List.map_eq_cons_iff.1 h
    exact .block (hb ▸ opens) (by rw [hc, hb]; exact closes) (ihInner hinner) (ihRest hrest)

theorem of_words {as : List α} (h : ∀ a ∈ as, isOpener (f a) = false ∧ openerOf (f a) = none) : Balanced f as := by
  induction as with
  | nil => exact .nil
  | cons a as ih =>
    obtain ⟨⟨opens, closes⟩, hrest⟩ := List.forall_mem_cons.1 h
    exact .word opens closes (ih hrest)

end Balanced

/-! ### Outside of brackets -/

section Outside

variable {α β : Type} {f : α → String} {g : β → String}

/-- The items outside of brackets, where `depth` brackets are open in front. -/
def outside (text : α → String) : (depth : Nat) → List α → List α
  | _, [] => []
  | depth, a :: as =>
    if isOpener (text a) then outside text (depth + 1) as
    else if (openerOf (text a)).isSome then outside text (depth - 1) as
    else if 0 < depth then outside text depth as
    else a :: outside text depth as

/-- A closing bracket opens nothing. -/
theorem isOpener_of_openerOf {text opener : String} (h : openerOf text = some opener) : isOpener text = false := by
  unfold openerOf at h
  split at h <;> first | rfl | cases h

/-- What a closing bracket closes is an opening one. -/
theorem isOpener_of_closes {text opener : String} (h : openerOf text = some opener) : isOpener opener = true := by
  unfold openerOf at h
  split at h <;> first | (rw [← Option.some.inj h]; rfl) | cases h

theorem outside_opens {a : α} (opens : isOpener (f a) = true) (depth : Nat) (as : List α) :
    outside f depth (a :: as) = outside f (depth + 1) as := by
  rw [outside, if_pos opens]

theorem outside_closes {a : α} {opener : String} (closes : openerOf (f a) = some opener) (depth : Nat) (as : List α) :
    outside f depth (a :: as) = outside f (depth - 1) as := by
  rw [outside, isOpener_of_openerOf closes, closes]
  rfl

theorem outside_word {a : α} (opens : isOpener (f a) = false) (closes : openerOf (f a) = none) (depth : Nat)
    (as : List α) :
    outside f depth (a :: as) = if 0 < depth then outside f depth as else a :: outside f depth as := by
  rw [outside, opens, closes]
  rfl

/-- Balanced brackets leave the same number of brackets open. -/
theorem Balanced.outside_append {as : List α} (h : Balanced f as) : ∀ (depth : Nat) (bs : List α),
    outside f depth (as ++ bs) = outside f depth as ++ outside f depth bs := by
  induction h with
  | nil => exact fun depth bs => rfl
  | word opens closes _ ih =>
    intro depth bs
    rw [List.cons_append, outside_word opens closes, outside_word opens closes, ih]
    split <;> rfl
  | block opens closes _ _ ihInner ihRest =>
    intro depth bs
    rw [List.cons_append, List.append_assoc, List.cons_append, outside_opens opens, outside_opens opens, ihInner,
      ihInner, outside_closes closes, outside_closes closes, Nat.add_sub_cancel, ihRest, List.append_assoc]

/-- Nothing of what stands in brackets is outside of them. -/
theorem Balanced.outside_succ {as : List α} (h : Balanced f as) : ∀ depth : Nat, outside f (depth + 1) as = [] := by
  induction h with
  | nil => exact fun depth => rfl
  | word opens closes _ ih =>
    intro depth
    rw [outside_word opens closes, if_pos (Nat.succ_pos _), ih]
  | block opens closes inner _ ihInner ihRest =>
    intro depth
    rw [outside_opens opens, inner.outside_append, ihInner, outside_closes closes, Nat.add_sub_cancel, ihRest]
    rfl

theorem outside_block {a c : α} {as : List α} (opens : isOpener (f a) = true) (closes : openerOf (f c) = some (f a))
    (inner : Balanced f as) (depth : Nat) : outside f depth (a :: (as ++ [c])) = [] := by
  rw [outside_opens opens, inner.outside_append, inner.outside_succ, outside_closes closes]
  rfl

theorem outside_subset : ∀ (as : List α) (depth : Nat), ∀ a ∈ outside f depth as, a ∈ as
  | [], _, _, h => h
  | b :: as, depth, a, h => by
    rw [outside] at h
    split at h
    · exact List.mem_cons_of_mem _ (outside_subset as _ a h)
    · split at h
      · exact List.mem_cons_of_mem _ (outside_subset as _ a h)
      · split at h
        · exact List.mem_cons_of_mem _ (outside_subset as _ a h)
        · rcases List.mem_cons.1 h with rfl | h
          · exact List.mem_cons_self
          · exact List.mem_cons_of_mem _ (outside_subset as _ a h)

/-- Only the texts count. -/
theorem outside_map {m : α → β} (h : ∀ a, g (m a) = f a) : ∀ (as : List α) (depth : Nat),
    outside g depth (as.map m) = (outside f depth as).map m
  | [], _ => rfl
  | a :: as, depth => by
    rw [List.map_cons, outside, outside, h]
    repeat' split
    all_goals simp only [outside_map h as, List.map_cons]

end Outside

/-! ### The scan over balanced brackets -/

namespace BracketScan

/-- The scan after the texts, the first of which is that of token `n`. -/
def run (s : BracketScan) (n : Nat) (texts : List String) : BracketScan :=
  (texts.zipIdx n).foldl (fun s (text, i) => s.step i text) s

@[simp] theorem run_nil (s : BracketScan) (n : Nat) : s.run n [] = s := rfl

@[simp] theorem run_cons (s : BracketScan) (n : Nat) (text : String) (texts : List String) :
    s.run n (text :: texts) = (s.step n text).run (n + 1) texts := rfl

theorem run_append (s : BracketScan) (n : Nat) (before after : List String) :
    s.run n (before ++ after) = (s.run n before).run (n + before.length) after := by
  rw [run, List.zipIdx_append, List.foldl_append]
  rfl

variable {s : BracketScan} {n : Nat} {text opener : String}

theorem step_word (opens : isOpener text = false) (closes : openerOf text = none) :
    (s.step n text).opened = s.opened := by
  rw [step, opens, closes]
  rfl

theorem step_opens (opens : isOpener text = true) : (s.step n text).opened = (n, text) :: s.opened := by
  rw [step, opens]
  rfl

/-- A closing bracket belongs together with the innermost open one, if that is of its shape. -/
theorem step_closes (closes : openerOf text = some opener) {o : Nat} {outer : List (Nat × String)}
    (hs : s.opened = (o, opener) :: outer) :
    (s.step n text).opened = outer ∧ (s.step n text).table.partner =
      (s.table.partner.setIfInBounds o (some n)).setIfInBounds n (some o) := by
  have hdrop : s.opened.dropWhile (·.2 != opener) = (o, opener) :: outer := by
    rw [hs, List.dropWhile_cons, if_neg (by simp)]
  rw [step, isOpener_of_openerOf closes, closes, if_neg Bool.false_ne_true]
  simp only [hdrop, and_self]

/-- **Balanced brackets leave the same brackets open.** -/
theorem opened_run_of_balanced {α : Type} {f : α → String} {as : List α} (h : Balanced f as) :
    ∀ (s : BracketScan) (n : Nat), (s.run n (as.map f)).opened = s.opened := by
  induction h with
  | nil => exact fun s n => rfl
  | word opens closes _ ih =>
    intro s n
    rw [List.map_cons, run_cons, ih, step_word opens closes]
  | block opens closes _ _ ihInner ihRest =>
    intro s n
    rw [List.map_cons, List.map_append, List.map_cons, run_cons, run_append, run_cons, ihRest]
    exact (step_closes closes (by rw [ihInner, step_opens opens])).1

theorem size_step (s : BracketScan) (n : Nat) (text : String) :
    (s.step n text).table.partner.size = s.table.partner.size := by
  unfold step
  split
  · rfl
  · split
    · rfl
    · split
      · rfl
      · simp only [Array.size_setIfInBounds]

theorem size_run : ∀ (texts : List String) (s : BracketScan) (n : Nat),
    (s.run n texts).table.partner.size = s.table.partner.size
  | [], _, _ => rfl
  | text :: texts, s, n => by rw [run_cons, size_run texts, size_step]

/-- Brackets with balanced ones between them are made partners. -/
theorem partner_run_block {α : Type} {f : α → String} {a c : α} {inner : List α} (opens : isOpener (f a) = true)
    (closes : openerOf (f c) = some (f a)) (balanced : Balanced f inner) (s : BracketScan) {n : Nat}
    (hsize : n + 1 + inner.length < s.table.partner.size) :
    (s.run n ((a :: (inner ++ [c])).map f)).table.partner.getD n none = some (n + 1 + inner.length) := by
  have hopened : ((s.step n (f a)).run (n + 1) (inner.map f)).opened = (n, f a) :: s.opened := by
    rw [opened_run_of_balanced balanced, step_opens opens]
  have hlen : ((s.step n (f a)).run (n + 1) (inner.map f)).table.partner.size = s.table.partner.size := by
    rw [size_run, size_step]
  rw [List.map_cons, List.map_append, List.map_singleton, run_cons, run_append, run_cons, run_nil, List.length_map,
    (step_closes closes hopened).2, getD_setPair (by omega) (by omega), if_neg (by omega), if_pos rfl]

/-! ### Partners stay partners -/

variable {word : Nat → String} {size : Nat}

theorem Sound.run (texts : List String) (hword : ∀ k < texts.length, texts.getD k "" = word (n + k))
    (hsize : n + texts.length ≤ size) (h : s.Sound word size n) :
    (s.run n texts).Sound word size (n + texts.length) := h.foldl hword hsize

theorem Sound.getD_step (h : s.Sound word size n) (hn : n < size) {i j : Nat}
    (hi : s.table.partner.getD i none = some j) : (s.step n (word n)).table.partner.getD i none = some j := by
  have hin : i < n := h.paired.lt j i (h.paired.symm i j hi)
  unfold BracketScan.step
  split
  · exact hi
  · split
    · exact hi
    · split
      · exact hi
      · rename_i o text outer hdrop
        -- The bracket that finds its partner now had none before.
        have hmem : (o, text) ∈ s.opened := (List.dropWhile_suffix _).subset (hdrop ▸ List.mem_cons_self)
        have hne : i ≠ o := by
          rintro rfl
          rw [h.free _ hmem] at hi
          cases hi
        have hbound : n < s.table.partner.size := by rw [h.size]; exact hn
        dsimp only
        rw [getD_setPair (Nat.lt_trans (h.opened _ hmem).1 hbound) hbound, if_neg (Nat.ne_of_lt hin), if_neg hne, hi]

theorem Sound.getD_run {i j : Nat} : ∀ (texts : List String) {n : Nat} {s : BracketScan},
    (∀ k < texts.length, texts.getD k "" = word (n + k)) → n + texts.length ≤ size → s.Sound word size n →
    s.table.partner.getD i none = some j → (s.run n texts).table.partner.getD i none = some j
  | [], _, _, _, _, _, hi => hi
  | t :: texts, n, s, hword, hsize, h, hi => by
    have ht : t = word n := hword 0 (Nat.zero_lt_succ _)
    rw [List.length_cons] at hsize
    rw [run_cons]
    refine getD_run texts (fun k hk => ?_) (by omega) (ht ▸ h.step (by omega)) (ht ▸ h.getD_step (by omega) hi)
    rw [Nat.add_assoc, Nat.add_comm 1 k]
    exact hword (k + 1) (Nat.succ_lt_succ hk)

end BracketScan

namespace Brackets

/-- Partners that are found in the front of texts are partners. -/
theorem getD_ofTexts_append {front back : List String} {i j : Nat}
    (h : (BracketScan.run ⟨⟨Array.replicate (front ++ back).length none, #[]⟩, [], []⟩ 0
      front).table.partner.getD i none = some j) :
    (ofTexts (front ++ back)).partner.getD i none = some j := by
  have hsound := (BracketScan.sound_start ((front ++ back).getD · "") (front ++ back).length).run front
    (fun k hk => by
      rw [Nat.zero_add, List.getD_eq_getElem?_getD, List.getD_eq_getElem?_getD, List.getElem?_append_left hk])
    (by rw [List.length_append]; omega)
  have hback := hsound.getD_run back (fun k hk => by
      rw [Nat.zero_add, List.getD_eq_getElem?_getD, List.getD_eq_getElem?_getD,
        List.getElem?_append_right (Nat.le_add_right _ _), Nat.add_sub_cancel_left])
    (by rw [List.length_append]; omega) h
  rw [← BracketScan.run_append] at hback
  exact hback

/-- **A pair of brackets with balanced ones between them belongs together.** -/
theorem partner_of_balanced {α : Type} {f : α → String} (before : List α) {inner : List α} (after : List α) {a c : α}
    (opens : isOpener (f a) = true) (closes : openerOf (f c) = some (f a)) (balanced : Balanced f inner) :
    (ofTexts ((before ++ (a :: (inner ++ [c])) ++ after).map f)).partner.getD before.length none =
      some (before.length + 1 + inner.length) := by
  rw [List.map_append]
  refine getD_ofTexts_append ?_
  have hsize : before.length + 1 + inner.length <
      ((before ++ (a :: (inner ++ [c]))).map f ++ after.map f).length := by
    simp
    omega
  have hmap : (before ++ (a :: (inner ++ [c]))).map f = before.map f ++ (a :: (inner ++ [c])).map f := List.map_append
  rw [hmap] at hsize ⊢
  rw [BracketScan.run_append, List.length_map, Nat.zero_add]
  refine BracketScan.partner_run_block opens closes balanced _ ?_
  rw [BracketScan.size_run, Array.size_replicate]
  exact hsize

end Brackets

/-! ### Balanced tokens of a document -/

namespace Outline

variable {d : Document}

theorem texts_eq (d : Document) : d.tokens.toList.map (·.text) = (List.range d.size).map d.wordAt := by
  refine List.ext_getElem (by simp [Document.size]) fun i h₁ h₂ => ?_
  rw [List.length_map] at h₁
  simp [Document.wordAt, Document.token, Array.getD_eq_getD_getElem?, Array.getElem?_eq_getElem h₁]

/-- **A pair of brackets with balanced ones between them belongs together.** -/
theorem closing?_of_balanced {i n : Nat} (hn : i + 1 + n < d.size) (opens : isOpener (d.wordAt i) = true)
    (closes : openerOf (d.wordAt (i + 1 + n)) = some (d.wordAt i))
    (balanced : Balanced d.wordAt (List.range' (i + 1) n)) :
    (ofDocument d).closing? i = some (i + 1 + n) := by
  generalize hafter : List.range' (i + 1 + n + 1) (d.size - (i + 1 + n + 1)) = after
  have hsplit : List.range i ++ (i :: (List.range' (i + 1) n ++ [i + 1 + n])) ++ after = List.range d.size := by
    have hblock : i :: (List.range' (i + 1) n ++ [i + 1 + n]) = List.range' i (n + 2) := by
      rw [List.range'_succ, List.range'_1_concat]
    have hfront := List.range'_append_1 (s := 0) (m := i) (n := n + 2 + (d.size - (i + (n + 2))))
    rw [Nat.zero_add] at hfront
    rw [hblock, ← hafter, List.range_eq_range', List.range_eq_range', List.append_assoc,
      show i + 1 + n + 1 = i + (n + 2) by omega, List.range'_append_1, hfront]
    congr 1
    omega
  have h := Brackets.partner_of_balanced (List.range i) after opens closes balanced
  rw [hsplit, ← texts_eq, List.length_range, List.length_range'] at h
  exact Option.filter_eq_some_iff.2 ⟨h, decide_eq_true (by omega)⟩

theorem partner?_of_closing? {o : Outline} {i c : Nat} (h : o.closing? i = some c) : o.partner? i = some c :=
  (Option.filter_eq_some_iff.1 h).1

/-- Tokens one behind another that are a block are so in its parts. -/
theorem range'_eq_block {i n a c : Nat} {as bs : List Nat} (h : a :: (as ++ c :: bs) = List.range' i n) :
    ∃ m l, n = m + l + 2 ∧ a = i ∧ as = List.range' (i + 1) m ∧ c = i + 1 + m ∧ bs = List.range' (i + 1 + m + 1) l := by
  have hlen := congrArg List.length h
  rw [List.length_cons, List.length_append, List.length_cons, List.length_range'] at hlen
  obtain ⟨rfl, h⟩ := List.cons.inj (h.trans (by rw [← hlen, List.range'_succ]))
  rw [Nat.add_comm bs.length, ← List.range'_append_1, ← Nat.add_comm bs.length, List.range'_succ] at h
  obtain ⟨has, h⟩ := List.append_inj h (by rw [List.length_range'])
  obtain ⟨hc, hbs⟩ := List.cons.inj h
  exact ⟨as.length, bs.length, by omega, rfl, has, hc, hbs⟩

/-- **The partners of balanced brackets are among them.** -/
theorem partner_of_balanced {as : List Nat} (h : Balanced d.wordAt as) : ∀ {i n : Nat}, as = List.range' i n →
    i + n ≤ d.size → ∀ k, i ≤ k → k < i + n → isOpener (d.wordAt k) = true ∨ openerOf (d.wordAt k) ≠ none →
      ∃ j, i ≤ j ∧ j < i + n ∧ (ofDocument d).partner? k = some j := by
  induction h with
  | nil =>
    intro i n has hn k hik hkn hk
    obtain rfl : n = 0 := by simpa using has.symm
    omega
  | word opens closes _ ih =>
    intro i n has hn k hik hkn hk
    obtain ⟨n, rfl⟩ : ∃ m, n = m + 1 := Nat.exists_eq_succ_of_ne_zero (by rintro rfl; cases has)
    rw [List.range'_succ] at has
    obtain ⟨rfl, has⟩ := List.cons.inj has
    rcases Nat.eq_or_lt_of_le hik with rfl | hik
    · rw [opens, closes] at hk
      simp at hk
    · obtain ⟨j, hj, hjn, hjk⟩ := ih has (by omega) k hik (by omega) hk
      exact ⟨j, by omega, by omega, hjk⟩
  | @block a c as bs opens closes inner rest ihInner ihRest =>
    intro i n has hn k hik hkn hk
    obtain ⟨m, l, rfl, rfl, rfl, rfl, rfl⟩ := range'_eq_block has
    have hpair := partner?_of_closing? (closing?_of_balanced (by omega) opens closes inner)
    rcases Nat.lt_trichotomy k (a + 1 + m) with hlt | rfl | hlt
    · rcases Nat.eq_or_lt_of_le hik with rfl | hik
      · exact ⟨_, by omega, by omega, hpair⟩
      · obtain ⟨j, hj, hjn, hjk⟩ := ihInner rfl (by omega) k hik hlt hk
        exact ⟨j, by omega, by omega, hjk⟩
    · exact ⟨_, by omega, by omega, ((sound_ofDocument d).partner hpair).2⟩
    · obtain ⟨j, hj, hjn, hjk⟩ := ihRest rfl (by omega) k hlt (by omega) hk
      exact ⟨j, by omega, by omega, hjk⟩

end Outline

end LayoutLint
