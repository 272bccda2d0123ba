import LayoutLint.Proofs.Syntax.Balanced
import Mathlib.Data.List.TakeWhile
/-!
# Nesting — how brackets lie in one another

Whatever the texts, the pairs that the scan makes lie one behind another or one inside of another
(`BracketScan.Nested`, kept by every step). A bracket that is no longer open and has no partner never gets one
(`BracketScan.Dropped`). So where every bracket has a partner the scan drops nothing: open are just the brackets whose
partners are still to come (`BracketScan.mem_opened_iff`), and the braces are told beside them without a difference
(`BracketScan.braces_eq`). Balanced texts are such texts, and the partners are those of the balanced structure
(`Joined`). `Brackets.nest_ofTexts` says it of the tables.
-/
namespace LayoutLint

theorem openerOf_eq_brace_iff {text : String} : openerOf text = some "\x7b" ↔ text = "\x7d" := by
  refine ⟨fun h => ?_, fun h => h ▸ rfl⟩
  unfold openerOf at h
  split at h <;> first | rfl | exact absurd h (by decide)

namespace BracketScan

variable {s s' : BracketScan} {word : Nat → String} {size n : Nat} {text : String}

/-! ### One step -/

/-- What taking token `n` into a scan can do. -/
inductive Steps (s : BracketScan) (n : Nat) (text : String) : BracketScan → Prop
  /-- It opens a bracket. -/
  | opens (opens : isOpener text = true) : Steps s n text
      { table := { s.table with enclosing := s.table.enclosing.push s.braces.head? }
        opened := (n, text) :: s.opened
        braces := if text = "\x7b" then n :: s.braces else s.braces }
  /-- It is no bracket, or closes one that is not open. -/
  | passes (opens : isOpener text = false)
      (closes : ∀ opener, openerOf text = some opener → ∀ p ∈ s.opened, p.2 ≠ opener) :
      Steps s n text { s with table := { s.table with enclosing := s.table.enclosing.push s.braces.head? } }
  /-- It closes a bracket, and those inside of it are dropped. -/
  | closes {inner outer : List (Nat × String)} {o : Nat} {opener : String} (closes : openerOf text = some opener)
      (opened : s.opened = inner ++ (o, opener) :: outer) (dropped : ∀ p ∈ inner, p.2 ≠ opener) : Steps s n text
      { table := { partner := (s.table.partner.setIfInBounds o (some n)).setIfInBounds n (some o)
                   enclosing := s.table.enclosing.push s.braces.head? }
        opened := outer
        braces := if text = "\x7d" then bracesOutside o s.braces else s.braces }

theorem steps (h : s.step n text = s') : s.Steps n text s' := by
  subst h
  unfold step
  split
  · rename_i hopens
    simp only [beq_iff_eq]
    exact .opens hopens
  · rename_i hopens
    have hopens := Bool.eq_false_iff.2 hopens
    split
    · rename_i hnone
      exact .passes hopens fun opener h => by rw [hnone] at h; cases h
    · rename_i opener hopener
      have hsplit := List.takeWhile_append_dropWhile (p := fun p : Nat × String => p.2 != opener) (l := s.opened)
      have hinner : ∀ p ∈ s.opened.takeWhile (fun p : Nat × String => p.2 != opener), p.2 ≠ opener := fun p hp =>
        bne_iff_ne.1 (List.mem_takeWhile_imp (p := fun p : Nat × String => p.2 != opener) hp)
      split
      · rename_i hdrop
        rw [hdrop, List.append_nil] at hsplit
        refine .passes hopens fun opener' h p hp => ?_
        obtain rfl := Option.some.inj (hopener.symm.trans h)
        exact hinner p (hsplit.symm ▸ hp)
      · rename_i o w outer hdrop
        have hw := List.head?_dropWhile_not (fun p : Nat × String => p.2 != opener) s.opened
        rw [hdrop] at hw hsplit
        obtain rfl : w = opener := by simpa using hw
        simp only [beq_iff_eq]
        exact .closes hopener hsplit.symm hinner

theorem enclosing_step (s : BracketScan) (n : Nat) (text : String) :
    (s.step n text).table.enclosing = s.table.enclosing.push s.braces.head? := by
  generalize hs' : s.step n text = s'
  cases steps hs' <;> rfl

/-! ### Pairs -/

/-- What holds of the pairs that a scan has made and of the brackets that are open. -/
structure Nested (s : BracketScan) : Prop where
  /-- Open are opening brackets. -/
  opener : ∀ p ∈ s.opened, isOpener p.2 = true
  /-- Of two open brackets the later one is the inner one. -/
  inner : s.opened.Pairwise fun p q => q.1 < p.1
  /-- No open bracket is inside of a pair. -/
  outside : ∀ p ∈ s.opened, ∀ a b, s.table.partner.getD a none = some b → a < p.1 → b < p.1
  /-- Pairs do not cross. -/
  apart : ∀ a b x y, s.table.partner.getD a none = some b → a < b → s.table.partner.getD x none = some y → x < y →
    a < x → b < x ∨ y < b

/-- **A step makes no pair that crosses another one.** -/
theorem Nested.step (h : s.Nested) (hs : s.Sound word size n) (hn : n < size) : (s.step n (word n)).Nested := by
  have hbound : n < s.table.partner.size := by rw [hs.size]; exact hn
  generalize hs' : s.step n (word n) = s'
  cases steps hs' with
  | opens opens =>
    refine ⟨List.forall_mem_cons.2 ⟨opens, h.opener⟩, List.pairwise_cons.2 ⟨fun p hp => (hs.opened p hp).1, h.inner⟩,
      List.forall_mem_cons.2 ⟨fun a b hab _ => hs.paired.lt a b hab, h.outside⟩, h.apart⟩
  | passes => exact ⟨h.opener, h.inner, h.outside, h.apart⟩
  | @closes inner outer o opener closes opened dropped =>
    have hsub : ∀ p ∈ (o, opener) :: outer, p ∈ s.opened := fun p hp => opened ▸ List.mem_append_right _ hp
    obtain ⟨ho, -⟩ := hs.opened _ (hsub _ List.mem_cons_self)
    have hout : ∀ a b, s.table.partner.getD a none = some b → a < o → b < o :=
      h.outside _ (hsub _ List.mem_cons_self)
    obtain ⟨houter, hinner⟩ := List.pairwise_cons.1 ((List.pairwise_append.1 (opened ▸ h.inner)).2.1)
    -- A pair is the new one, either way round, or was there before.
    have hpair : ∀ {a b}, ((s.table.partner.setIfInBounds o (some n)).setIfInBounds n (some o)).getD a none = some b →
        (a = n ∧ b = o) ∨ (a = o ∧ b = n) ∨ s.table.partner.getD a none = some b := by
      intro a b hab
      rw [getD_setPair (Nat.lt_trans ho hbound) hbound] at hab
      split at hab
      · exact .inl ⟨‹_›, (Option.some.inj hab).symm⟩
      · split at hab
        · exact .inr (.inl ⟨‹_›, (Option.some.inj hab).symm⟩)
        · exact .inr (.inr hab)
    refine ⟨fun p hp => h.opener p (hsub p (List.mem_cons_of_mem _ hp)), hinner, fun p hp a b hab hap => ?_,
      fun a b x y hab hlt hxy hlt' hax => ?_⟩
    · have hpo := houter p hp
      rcases hpair hab with ⟨rfl, rfl⟩ | ⟨rfl, rfl⟩ | hold
      · omega
      · omega
      · exact h.outside p (hsub p (List.mem_cons_of_mem _ hp)) a b hold hap
    · rcases hpair hab with ⟨rfl, rfl⟩ | ⟨rfl, rfl⟩ | hold
      · omega
      · rcases hpair hxy with ⟨rfl, rfl⟩ | ⟨rfl, rfl⟩ | hold'
        · omega
        · omega
        · exact .inr (hs.paired.lt x y hold')
      · rcases hpair hxy with ⟨rfl, rfl⟩ | ⟨rfl, rfl⟩ | hold'
        · omega
        · exact .inl (hout a b hold hax)
        · exact h.apart a b x y hold hlt hold' hlt' hax

/-! ### Brackets that are dropped -/

/-- Bracket `p` is not open and has no partner. -/
def Dropped (s : BracketScan) (p : Nat) : Prop := (∀ q ∈ s.opened, q.1 ≠ p) ∧ s.table.partner.getD p none = none

/-- **What is dropped stays without partner.** -/
theorem Dropped.step {p : Nat} (h : s.Dropped p) (hs : s.Sound word size n) (hn : n < size) (hp : p < n) :
    (s.step n (word n)).Dropped p := by
  have hbound : n < s.table.partner.size := by rw [hs.size]; exact hn
  generalize hs' : s.step n (word n) = s'
  cases steps hs' with
  | opens => exact ⟨List.forall_mem_cons.2 ⟨Nat.ne_of_gt hp, h.1⟩, h.2⟩
  | passes => exact h
  | @closes inner outer o opener closes opened dropped =>
    have hmem : (o, opener) ∈ s.opened := opened ▸ List.mem_append_right _ List.mem_cons_self
    refine ⟨fun q hq => h.1 q (opened ▸ List.mem_append_right _ (List.mem_cons_of_mem _ hq)), ?_⟩
    dsimp only
    rw [getD_setPair (Nat.lt_trans (hs.opened _ hmem).1 hbound) hbound, if_neg (Nat.ne_of_lt hp),
      if_neg (h.1 _ hmem).symm, h.2]

/-! ### The scan of the first texts -/

/-- The scan of the first `k` texts. -/
def before (texts : List String) (k : Nat) : BracketScan :=
  run ⟨⟨Array.replicate texts.length none, #[]⟩, [], []⟩ 0 (texts.take k)

variable {texts : List String} {k : Nat}

theorem before_succ (hk : k < texts.length) :
    before texts (k + 1) = (before texts k).step k (texts.getD k "") := by
  rw [before, List.take_succ_eq_append_getElem hk, run_append, List.length_take_of_le (Nat.le_of_lt hk), Nat.zero_add,
    List.getD_eq_getElem?_getD, List.getElem?_eq_getElem hk]
  rfl

theorem table_before (texts : List String) : (before texts texts.length).table = Brackets.ofTexts texts := by
  rw [before, List.take_length]
  rfl

theorem sound_before (hk : k ≤ texts.length) : (before texts k).Sound (texts.getD · "") texts.length k := by
  induction k with
  | zero => exact sound_start _ _
  | succ k ih => rw [before_succ hk]; exact (ih (Nat.le_of_succ_le hk)).step hk

theorem nested_before (hk : k ≤ texts.length) : (before texts k).Nested := by
  induction k with
  | zero =>
    have hnone : ∀ i, (before texts 0).table.partner.getD i none = none := fun i => by
      show (Array.replicate texts.length none).getD i none = none
      rw [Array.getD_eq_getD_getElem?, Array.getElem?_replicate]
      split <;> rfl
    refine ⟨fun p hp => absurd hp List.not_mem_nil, .nil, fun p hp => absurd hp List.not_mem_nil, fun a b x y hab => ?_⟩
    rw [hnone] at hab
    cases hab
  | succ k ih =>
    rw [before_succ hk]
    exact (ih (Nat.le_of_succ_le hk)).step (sound_before (Nat.le_of_succ_le hk)) hk

theorem enclosing_before (hk : k ≤ texts.length) :
    (before texts k).table.enclosing = ((List.range k).map fun i => (before texts i).braces.head?).toArray := by
  induction k with
  | zero => rfl
  | succ k ih =>
    rw [before_succ hk, enclosing_step, ih (Nat.le_of_succ_le hk), List.range_succ, List.map_append, List.push_toArray]
    rfl

/-- The table tells of a token the innermost brace that is open before it. -/
theorem getD_enclosing {i : Nat} (hi : i < texts.length) :
    (Brackets.ofTexts texts).enclosing.getD i none = (before texts i).braces.head? := by
  rw [← table_before, enclosing_before (Nat.le_refl _), Array.getD_eq_getD_getElem?, List.getElem?_toArray,
    List.getElem?_map, List.getElem?_range hi]
  rfl

theorem partner_of_before {i j : Nat} (hk : k ≤ texts.length)
    (h : (before texts k).table.partner.getD i none = some j) :
    (Brackets.ofTexts texts).partner.getD i none = some j := by
  have hrest : ∀ m, k ≤ m → m ≤ texts.length → (before texts m).table.partner.getD i none = some j := by
    intro m hkm
    induction hkm with
    | refl => exact fun _ => h
    | @step m hkm ih =>
      intro hm
      rw [before_succ hm]
      exact (sound_before (Nat.le_of_succ_le hm)).getD_step hm (ih (Nat.le_of_succ_le hm))
  rw [← table_before]
  exact hrest _ hk (Nat.le_refl _)

theorem Dropped.partner_eq_none {p : Nat} (hk : k ≤ texts.length) (hp : p < k) (h : (before texts k).Dropped p) :
    (Brackets.ofTexts texts).partner.getD p none = none := by
  have hrest : ∀ m, k ≤ m → m ≤ texts.length → (before texts m).Dropped p := by
    intro m hkm
    induction hkm with
    | refl => exact fun _ => h
    | @step m hkm ih =>
      intro hm
      rw [before_succ hm]
      exact (ih (Nat.le_of_succ_le hm)).step (sound_before (Nat.le_of_succ_le hm)) hm (Nat.lt_of_lt_of_le hp hkm)
  rw [← table_before]
  exact (hrest _ hk (Nat.le_refl _)).2

/-- A bracket that has a partner in the end has it already, or is open. -/
theorem open_or_paired {p c : Nat} (hk : k ≤ texts.length) (hp : p < k)
    (h : (Brackets.ofTexts texts).partner.getD p none = some c) :
    (∃ q ∈ (before texts k).opened, q.1 = p) ∨ (before texts k).table.partner.getD p none = some c := by
  refine or_iff_not_imp_left.2 fun hopen => ?_
  cases hc : (before texts k).table.partner.getD p none with
  | none =>
    have hdropped : (before texts k).Dropped p := ⟨fun q hq hqp => hopen ⟨q, hq, hqp⟩, hc⟩
    rw [hdropped.partner_eq_none hk hp] at h
    cases h
  | some b => exact (partner_of_before hk hc).symm.trans h

/-- A bracket is open until its partner comes. -/
theorem exists_opened_of_partner {p c : Nat} (hk : k ≤ texts.length) (hp : p < k) (hkc : k ≤ c)
    (h : (Brackets.ofTexts texts).partner.getD p none = some c) : ∃ q ∈ (before texts k).opened, q.1 = p := by
  refine (open_or_paired hk hp h).resolve_right fun hpaired => ?_
  have := (sound_before hk).paired.lt _ _ hpaired
  omega

/-- A closing bracket takes a partner when a bracket of its shape is open. -/
theorem exists_partner_of_opened {q : Nat × String} (hk : k < texts.length) (hq : q ∈ (before texts k).opened)
    (hcloses : openerOf (texts.getD k "") = some q.2) :
    ∃ o, (Brackets.ofTexts texts).partner.getD k none = some o := by
  have hs := sound_before (Nat.le_of_lt hk)
  have hbound : k < (before texts k).table.partner.size := by rw [hs.size]; exact hk
  have hsucc := before_succ hk
  generalize hs' : before texts (k + 1) = s' at hsucc
  cases steps hsucc.symm with
  | opens opens =>
    rw [isOpener_of_openerOf hcloses] at opens
    cases opens
  | passes opens closes => exact absurd rfl (closes _ hcloses q hq)
  | @closes inner outer o opener closes opened dropped =>
    have ho : o < k := (hs.opened _ (opened ▸ List.mem_append_right _ List.mem_cons_self)).1
    refine ⟨o, partner_of_before hk ?_⟩
    rw [hs']
    exact (getD_setPair (Nat.lt_trans ho hbound) hbound k).trans (if_pos rfl)

end BracketScan

/-! ### Texts in which every bracket has a partner -/

namespace Brackets

variable {texts : List String}

theorem matched_texts (texts : List String) :
    Matched (texts.getD · "") (ofTexts texts).partner ∧ Paired texts.length (ofTexts texts).partner :=
  matched_ofTexts fun _ _ => rfl

/-- Is text `i` a bracket? -/
def IsBracket (texts : List String) (i : Nat) : Prop :=
  isOpener (texts.getD i "") = true ∨ openerOf (texts.getD i "") ≠ none

/-- Every bracket has a partner. -/
def Complete (texts : List String) : Prop :=
  ∀ i, IsBracket texts i → (ofTexts texts).partner.getD i none ≠ none

end Brackets

namespace BracketScan

variable {texts : List String} {k : Nat} (complete : Brackets.Complete texts) (hk : k ≤ texts.length)
include complete hk

/-- **Open are the brackets whose partners are still to come.** -/
theorem mem_opened_iff {p : Nat} : (∃ q ∈ (before texts k).opened, q.1 = p) ↔ p < k ∧
    isOpener (texts.getD p "") = true ∧ ∃ c, (Brackets.ofTexts texts).partner.getD p none = some c ∧ k ≤ c := by
  have hs := sound_before hk
  constructor
  · rintro ⟨q, hq, rfl⟩
    obtain ⟨hlt, hword⟩ := hs.opened q hq
    have hopener : isOpener (texts.getD q.1 "") = true := hword ▸ (nested_before hk).opener q hq
    obtain ⟨c, hc⟩ := Option.ne_none_iff_exists'.1 (complete q.1 (.inl hopener))
    refine ⟨hlt, hopener, c, hc, Nat.le_of_not_lt fun hck => ?_⟩
    -- A partner that was read is a closing bracket, so it is not open and has its partner already.
    have hqc := (Brackets.matched_texts texts).2.symm _ _ hc
    rcases open_or_paired hk hck hqc with ⟨r, hr, rfl⟩ | hpaired
    · have hr : isOpener (texts.getD r.1 "") = true := (hs.opened r hr).2 ▸ (nested_before hk).opener r hr
      rcases (Brackets.matched_texts texts).1 _ _ hc with ⟨-, hclose⟩ | ⟨-, hclose⟩
      · rw [isOpener_of_openerOf hclose] at hr
        cases hr
      · rw [isOpener_of_openerOf hclose] at hopener
        cases hopener
    · have := hs.paired.symm _ _ hpaired
      rw [hs.free q hq] at this
      cases this
  · rintro ⟨hpk, -, c, hc, hkc⟩
    exact exists_opened_of_partner hk hpk hkc hc

omit hk in
/-- Every bracket that a closing one could drop would stay without partner. -/
theorem inner_eq_nil (hk : k < texts.length) {inner outer : List (Nat × String)} {o : Nat} {opener : String}
    (opened : (before texts k).opened = inner ++ (o, opener) :: outer)
    (next : (before texts (k + 1)).opened = outer) (partner : (before texts (k + 1)).table.partner =
      ((before texts k).table.partner.setIfInBounds o (some k)).setIfInBounds k (some o)) : inner = [] := by
  have hs := sound_before (Nat.le_of_lt hk)
  have hnested := nested_before (Nat.le_of_lt hk)
  have hsorted := (List.pairwise_append.1 (opened ▸ hnested.inner)).2.2
  have hbound : k < (before texts k).table.partner.size := by rw [hs.size]; exact hk
  refine List.eq_nil_iff_forall_not_mem.2 fun p hp => ?_
  have hmem : p ∈ (before texts k).opened := opened ▸ List.mem_append_left _ hp
  have hpo : o < p.1 := hsorted p hp _ List.mem_cons_self
  obtain ⟨hpk, hword⟩ := hs.opened p hmem
  have hdropped : (before texts (k + 1)).Dropped p.1 := by
    refine ⟨fun q hq => Nat.ne_of_lt (hsorted p hp q (List.mem_cons_of_mem _ (next ▸ hq))), ?_⟩
    rw [partner, getD_setPair (by omega) hbound, if_neg (Nat.ne_of_lt hpk), if_neg (Nat.ne_of_gt hpo), hs.free p hmem]
  exact complete p.1 (.inl (hword ▸ hnested.opener p hmem)) (hdropped.partner_eq_none hk (Nat.lt_succ_of_lt hpk))

/-- **Nothing is dropped, so the braces told are those among the open brackets.** -/
theorem braces_eq : (before texts k).braces = ((before texts k).opened.filter (·.2 == "\x7b")).map (·.1) := by
  induction k with
  | zero => rfl
  | succ k ih =>
    have ih := ih (Nat.le_of_succ_le hk)
    have hsucc := before_succ hk
    generalize texts.getD k "" = text at hsucc
    generalize hs' : before texts (k + 1) = s' at hsucc ⊢
    cases BracketScan.steps hsucc.symm with
    | opens opens =>
      by_cases hbrace : text = "\x7b" <;> simp [hbrace, ih]
    | passes => exact ih
    | @closes inner outer o opener closes opened dropped =>
      obtain rfl := inner_eq_nil complete hk opened (congrArg BracketScan.opened hs')
        (congrArg (·.table.partner) hs')
      rw [opened, List.nil_append] at ih
      by_cases hbrace : opener = "\x7b"
      · subst hbrace
        simp [openerOf_eq_brace_iff.1 closes, ih, bracesOutside]
      · have hne : text ≠ "\x7d" := fun h => hbrace (Option.some.inj (closes.symm.trans (h ▸ rfl)))
        simpa [hne, hbrace] using ih

theorem mem_braces_iff {o : Nat} : o ∈ (before texts k).braces ↔ o < k ∧ texts.getD o "" = "\x7b" ∧
    ∃ c, (Brackets.ofTexts texts).partner.getD o none = some c ∧ k ≤ c := by
  have hs := sound_before hk
  rw [braces_eq complete hk]
  constructor
  · intro ho
    obtain ⟨q, hq, rfl⟩ := List.mem_map.1 ho
    obtain ⟨hq, hbrace⟩ := List.mem_filter.1 hq
    obtain ⟨hlt, -, hc⟩ := (mem_opened_iff complete hk).1 ⟨q, hq, rfl⟩
    exact ⟨hlt, (hs.opened q hq).2 ▸ beq_iff_eq.1 hbrace, hc⟩
  · rintro ⟨hlt, hbrace, hc⟩
    obtain ⟨q, hq, rfl⟩ := (mem_opened_iff complete hk).2 ⟨hlt, by rw [hbrace]; rfl, hc⟩
    exact List.mem_map.2 ⟨q, List.mem_filter.2 ⟨hq, beq_iff_eq.2 ((hs.opened q hq).2.trans hbrace)⟩, rfl⟩

theorem pairwise_braces : (before texts k).braces.Pairwise fun o o' => o' < o := by
  rw [braces_eq complete hk]
  exact ((nested_before hk).inner.sublist List.filter_sublist).map _ fun _ _ h => h

end BracketScan
/-! ### The structure of balanced texts -/

/-- Brackets `i` and `j` are of one shape, and what stands between them is balanced. -/
def Joined (texts : List String) (i j : Nat) : Prop := ∃ before a inner c after,
  texts = before ++ (a :: (inner ++ [c])) ++ after ∧ i = before.length ∧ j = before.length + 1 + inner.length ∧
    isOpener a = true ∧ openerOf c = some a ∧ Balanced id inner

namespace Joined

variable {texts : List String} {i j : Nat}

/-- What is joined in a part is joined in the whole. -/
theorem within (h : Joined texts i j) (front back : List String) :
    Joined (front ++ texts ++ back) (front.length + i) (front.length + j) := by
  obtain ⟨before, a, inner, c, after, rfl, rfl, rfl, opens, closes, balanced⟩ := h
  refine ⟨front ++ before, a, inner, c, after ++ back, by simp only [List.append_assoc], ?_, ?_, opens, closes,
    balanced⟩
  · rw [List.length_append]
  · rw [List.length_append, Nat.add_assoc, Nat.add_assoc, Nat.add_assoc]

theorem lt (h : Joined texts i j) : i < j := by
  obtain ⟨before, a, inner, c, after, -, rfl, rfl, -⟩ := h
  omega

theorem partner? (h : Joined texts i j) : (Brackets.ofTexts texts).partner? i = some j := by
  obtain ⟨before, a, inner, c, after, rfl, rfl, rfl, opens, closes, balanced⟩ := h
  have key := Brackets.partner_of_balanced (f := id) before after opens closes balanced
  rwa [List.map_id] at key

end Joined

/-- Every bracket of the texts is joined with one. -/
def AllJoined (texts : List String) : Prop :=
  ∀ i < texts.length, Brackets.IsBracket texts i → ∃ j, Joined texts i j ∨ Joined texts j i

/-- A bracket of a part that is joined there is joined in the whole. -/
theorem AllJoined.within {mid : List String} (h : AllJoined mid) (front back : List String) {i : Nat}
    (hi : i < mid.length) (hbracket : Brackets.IsBracket (front ++ mid ++ back) (front.length + i)) :
    ∃ j, Joined (front ++ mid ++ back) (front.length + i) j ∨ Joined (front ++ mid ++ back) j (front.length + i) := by
  have hget : (front ++ mid ++ back).getD (front.length + i) "" = mid.getD i "" := by
    rw [List.getD_eq_getElem?_getD, List.append_assoc, List.getElem?_append_right (Nat.le_add_right _ _),
      Nat.add_sub_cancel_left, List.getElem?_append_left hi, List.getD_eq_getElem?_getD]
  obtain ⟨j, hj⟩ := h i hi (by rwa [Brackets.IsBracket, hget] at hbracket)
  exact ⟨front.length + j, hj.imp (·.within front back) (·.within front back)⟩

/-- **Every bracket of balanced texts is joined with one.** -/
theorem Balanced.allJoined {texts : List String} (h : Balanced id texts) : AllJoined texts := by
  induction h with
  | nil => exact fun i hi => absurd hi (Nat.not_lt_zero i)
  | @word a as opens closes _ ih =>
    rintro (_ | i) hi h
    · rcases h with h | h
      · exact absurd h (Bool.eq_false_iff.1 opens)
      · exact absurd closes h
    · have key := ih.within [a] [] (Nat.lt_of_succ_lt_succ hi)
      rw [List.append_nil, List.length_singleton, Nat.add_comm 1 i] at key
      exact key h
  | @block a c as bs opens closes inner _ ihInner ihRest =>
    have hblock : Joined (a :: (as ++ c :: bs)) 0 (1 + as.length) :=
      ⟨[], a, as, c, bs, by simp, rfl, by simp, opens, closes, inner⟩
    intro i hi h
    rcases Nat.eq_zero_or_pos i with rfl | hpos
    · exact ⟨_, .inl hblock⟩
    rcases Nat.lt_trichotomy i (1 + as.length) with hlt | rfl | hlt
    · have key := ihInner.within [a] (c :: bs) (i := i - 1) (by omega)
      rw [List.length_singleton, Nat.add_sub_cancel' hpos] at key
      exact key h
    · exact ⟨0, .inr hblock⟩
    · have hlen : (a :: (as ++ [c])).length = as.length + 2 := by simp
      have htexts : a :: (as ++ [c]) ++ bs ++ [] = a :: (as ++ c :: bs) := by simp
      have key := ihRest.within (a :: (as ++ [c])) [] (i := i - (as.length + 2)) (by simp at hi; omega)
      rw [hlen, htexts, Nat.add_sub_cancel' (by omega)] at key
      exact key h

namespace Brackets

variable {texts : List String}

theorem IsBracket.lt {i : Nat} (h : IsBracket texts i) : i < texts.length := by
  refine Nat.lt_of_not_le fun hi => ?_
  rw [IsBracket, List.getD_eq_getElem?_getD, List.getElem?_eq_none hi] at h
  exact absurd h (by decide)

theorem isBracket_of_partner? {i j : Nat} (h : (ofTexts texts).partner? i = some j) : IsBracket texts i := by
  rcases (matched_texts texts).1 i j h with ⟨-, hclose⟩ | ⟨-, hclose⟩
  · exact .inl (isOpener_of_closes hclose)
  · exact .inr (by rw [hclose]; exact Option.some_ne_none _)

theorem complete_of_balanced (h : Balanced id texts) : Complete texts := by
  intro i hi
  obtain ⟨j, hj | hj⟩ := h.allJoined i hi.lt hi
  · exact Option.ne_none_iff_exists'.2 ⟨j, hj.partner?⟩
  · exact Option.ne_none_iff_exists'.2 ⟨j, (matched_texts texts).2.symm _ _ hj.partner?⟩

/-- The partners of balanced texts are what is joined. -/
theorem partner?_iff_of_balanced (h : Balanced id texts) {i j : Nat} (hij : i < j) :
    (ofTexts texts).partner? i = some j ↔ Joined texts i j := by
  refine ⟨fun hp => ?_, Joined.partner?⟩
  have hi := isBracket_of_partner? hp
  obtain ⟨k, hk | hk⟩ := h.allJoined i hi.lt hi
  · obtain rfl := Option.some.inj (hp.symm.trans hk.partner?)
    exact hk
  · have hback := (matched_texts texts).2.symm _ _ hk.partner?
    have := Option.some.inj (hp.symm.trans hback)
    have := hk.lt
    omega

/-- Text `o` is an opening brace, and text `i` stands inside of its pair or closes it. -/
def Around (b : Brackets) (texts : List String) (i o : Nat) : Prop :=
  texts.getD o "" = "\x7b" ∧ o < i ∧ ∃ c, b.partner? o = some c ∧ i ≤ c

/-- **The brace told of a text is the innermost one around it**, where every bracket has a partner. -/
theorem enclosing_iff (complete : Complete texts) {i o : Nat} (hi : i < texts.length) :
    (ofTexts texts).enclosing.getD i none = some o ↔
      (ofTexts texts).Around texts i o ∧ ∀ o', (ofTexts texts).Around texts i o' → o' ≤ o := by
  have hmem : ∀ o, o ∈ (BracketScan.before texts i).braces ↔ (ofTexts texts).Around texts i o := fun o =>
    (BracketScan.mem_braces_iff complete (Nat.le_of_lt hi)).trans and_left_comm
  have hsorted := BracketScan.pairwise_braces complete (Nat.le_of_lt hi)
  rw [BracketScan.getD_enclosing hi]
  simp only [← hmem]
  generalize (BracketScan.before texts i).braces = braces at hsorted
  cases braces with
  | nil => simp
  | cons b braces =>
    have hle := (List.pairwise_cons.1 hsorted).1
    rw [List.head?_cons, Option.some_inj]
    constructor
    · rintro rfl
      exact ⟨List.mem_cons_self, List.forall_mem_cons.2 ⟨Nat.le_refl _, fun o' ho' => Nat.le_of_lt (hle o' ho')⟩⟩
    · rintro ⟨ho, hmax⟩
      rcases List.mem_cons.1 ho with rfl | ho
      · rfl
      · have := hle o ho
        have := hmax b List.mem_cons_self
        omega

theorem enclosing_eq_none_iff (complete : Complete texts) {i : Nat} (hi : i < texts.length) :
    (ofTexts texts).enclosing.getD i none = none ↔ ∀ o, ¬ (ofTexts texts).Around texts i o := by
  have hmem : ∀ o, o ∈ (BracketScan.before texts i).braces ↔ (ofTexts texts).Around texts i o := fun o =>
    (BracketScan.mem_braces_iff complete (Nat.le_of_lt hi)).trans and_left_comm
  rw [BracketScan.getD_enclosing hi, List.head?_eq_none_iff, List.eq_nil_iff_forall_not_mem]
  simp only [hmem]

/-- How the tables of texts lie, whatever the texts. -/
structure Nest (b : Brackets) (texts : List String) : Prop where
  /-- There is an entry for each text. -/
  sizes : b.partner.size = texts.length ∧ b.enclosing.size = texts.length
  symm : ∀ i j, b.partner? i = some j → b.partner? j = some i
  /-- An opening bracket and a closing one of its shape behind it. -/
  shape : ∀ i j, b.partner? i = some j → j < texts.length ∧
    (i < j ∧ openerOf (texts.getD j "") = some (texts.getD i "") ∨
      j < i ∧ openerOf (texts.getD i "") = some (texts.getD j ""))
  /-- One behind the other, or one inside of the other. -/
  apart : ∀ i j k l, b.partner? i = some j → i < j → b.partner? k = some l → k < l → i < k → j < k ∨ l < j

/-- The tables tell the structure of balanced texts. -/
structure Follows (b : Brackets) (texts : List String) : Prop where
  matched : ∀ i, IsBracket texts i → ∃ j, b.partner? i = some j
  joined : ∀ i j, i < j → (b.partner? i = some j ↔ Joined texts i j)
  innermost : ∀ i < texts.length, ∀ o,
    b.enclosing.getD i none = some o ↔ b.Around texts i o ∧ ∀ o', b.Around texts i o' → o' ≤ o
  outermost : ∀ i < texts.length, (b.enclosing.getD i none = none ↔ ∀ o, ¬ b.Around texts i o)

/-- **Brackets are matched as a proper nesting**: partners tell one another, they are an opening bracket and a later
closing one of its shape, and pairs do not cross. In balanced texts every bracket has its partner of the balanced
structure, and the brace told of a text is the innermost one whose pair it stands in or closes. -/
theorem nest_ofTexts (texts : List String) :
    (ofTexts texts).Nest texts ∧ (Balanced id texts → (ofTexts texts).Follows texts) := by
  obtain ⟨hmatched, hpaired⟩ := matched_texts texts
  have hsound := BracketScan.sound_before (Nat.le_refl texts.length)
  have hnested := BracketScan.nested_before (Nat.le_refl texts.length)
  have henclosing := BracketScan.enclosing_before (Nat.le_refl texts.length)
  rw [BracketScan.table_before] at henclosing
  refine ⟨⟨⟨?_, ?_⟩, hpaired.symm, fun i j hij => ⟨hpaired.lt i j hij, hmatched i j hij⟩, ?_⟩, fun h => ?_⟩
  · rw [← BracketScan.table_before, hsound.size]
  · rw [henclosing]
    simp
  · have hapart := hnested.apart
    rwa [BracketScan.table_before] at hapart
  · have complete := complete_of_balanced h
    exact ⟨fun i hi => Option.ne_none_iff_exists'.1 (complete i hi), fun i j hij => partner?_iff_of_balanced h hij,
      fun i hi o => enclosing_iff complete hi, fun i hi => enclosing_eq_none_iff complete hi⟩

/-- A call in braces, with an index in it. -/
theorem nest_ofTexts_call : Balanced id ["\x7b", "f", "(", "[", "]", ")", "\x7d", ";"] ∧
    (ofTexts ["\x7b", "f", "(", "[", "]", ")", "\x7d", ";"]).Follows
      ["\x7b", "f", "(", "[", "]", ")", "\x7d", ";"] ∧
    (ofTexts ["\x7b", "f", "(", "[", "]", ")", "\x7d", ";"]).enclosing.getD 6 none = some 0 ∧
    Joined ["\x7b", "f", "(", "[", "]", ")", "\x7d", ";"] 2 5 := by
  have hsquare : Balanced id ["[", "]"] := @Balanced.block _ id "[" "]" [] [] rfl rfl .nil .nil
  have hcall : Balanced id ["f", "(", "[", "]", ")"] :=
    .word rfl rfl (@Balanced.block _ id "(" ")" ["[", "]"] [] rfl rfl hsquare .nil)
  have hbalanced : Balanced id ["\x7b", "f", "(", "[", "]", ")", "\x7d", ";"] :=
    @Balanced.block _ id "\x7b" "\x7d" ["f", "(", "[", "]", ")"] [";"] rfl rfl hcall (.word rfl rfl .nil)
  have hfollows := (nest_ofTexts _).2 hbalanced
  exact ⟨hbalanced, hfollows, by decide, (hfollows.joined 2 5 (by decide)).1 (by decide)⟩

-- The parenthesis drops the brace, which has no partner then, but the brace is told of what comes behind.
example : (ofTexts ["(", "\x7b", ")", "x"]).partner? 1 = none ∧
    (ofTexts ["(", "\x7b", ")", "x"]).enclosing.getD 3 none = some 1 := by decide

end Brackets

end LayoutLint
