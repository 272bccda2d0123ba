import LayoutLint.Syntax.Generics
/-!
# Tables — what the tables of an outline hold

Brackets that belong together have one shape, and the opening one stands in front (`Matched`); each is told by the other
one (`Paired`). A step of the scan keeps this, whatever the brackets of the text. The tables of type arguments hold
nothing but angle brackets, with types and their punctuation between them.
-/
namespace LayoutLint

/-- Partners are an opening bracket and, behind it, a closing one of its shape. -/
def Matched (word : Nat → String) (partner : Array (Option Nat)) : Prop :=
  ∀ i j, partner.getD i none = some j →
    (i < j ∧ openerOf (word j) = some (word i)) ∨ (j < i ∧ openerOf (word i) = some (word j))

/-- Partners are told by one another, and all of them are among the first `n` tokens. -/
structure Paired (n : Nat) (partner : Array (Option Nat)) : Prop where
  symm : ∀ i j, partner.getD i none = some j → partner.getD j none = some i
  lt : ∀ i j, partner.getD i none = some j → j < n

/-- What holds of a scan of the first `n` of `size` tokens. -/
structure BracketScan.Sound (word : Nat → String) (size n : Nat) (s : BracketScan) : Prop where
  size : s.table.partner.size = size
  matched : Matched word s.table.partner
  paired : Paired n s.table.partner
  opened : ∀ p ∈ s.opened, p.1 < n ∧ p.2 = word p.1
  free : ∀ p ∈ s.opened, s.table.partner.getD p.1 none = none
  distinct : s.opened.Pairwise fun p q => p.1 ≠ q.1

theorem Matched.set {word : Nat → String} {partner : Array (Option Nat)} (h : Matched word partner) {o i : Nat}
    (ho : o < i) (hw : openerOf (word i) = some (word o)) :
    Matched word ((partner.setIfInBounds o (some i)).setIfInBounds i (some o)) := by
  intro a b hab
  simp only [Array.getD_eq_getD_getElem?, Array.getElem?_setIfInBounds, Array.size_setIfInBounds] at hab
  split at hab
  · rename_i hia
    split at hab
    · obtain rfl := Option.some.inj hab
      exact .inr ⟨hia ▸ ho, hia ▸ hw⟩
    · cases hab
  · split at hab
    · rename_i hoa
      split at hab
      · obtain rfl := Option.some.inj hab
        exact .inl ⟨hoa ▸ ho, hoa ▸ hw⟩
      · cases hab
    · exact h a b (by rw [Array.getD_eq_getD_getElem?]; exact hab)

theorem getD_setPair {partner : Array (Option Nat)} {o n : Nat} (ho : o < partner.size) (hn : n < partner.size)
    (k : Nat) : ((partner.setIfInBounds o (some n)).setIfInBounds n (some o)).getD k none =
      if k = n then some o else if k = o then some n else partner.getD k none := by
  simp only [Array.getD_eq_getD_getElem?, Array.getElem?_setIfInBounds, Array.size_setIfInBounds, hn, ho, if_true,
    eq_comm (b := k)]
  split
  · rfl
  · split <;> rfl

theorem Paired.mono {partner : Array (Option Nat)} {n m : Nat} (h : Paired n partner) (hnm : n ≤ m) :
    Paired m partner :=
  ⟨h.symm, fun i j hij => Nat.lt_of_lt_of_le (h.lt i j hij) hnm⟩

/-- Two tokens without partners are made partners of one another. -/
theorem Paired.set {partner : Array (Option Nat)} {o n : Nat} (h : Paired n partner) (hn : n < partner.size)
    (ho : o < n)
    (hfree : partner.getD o none = none) :
    Paired (n + 1) ((partner.setIfInBounds o (some n)).setIfInBounds n (some o)) := by
  have hget := fun k => getD_setPair (Nat.lt_trans ho hn) hn k
  refine ⟨fun i j hij => ?_, fun i j hij => ?_⟩
  · rw [hget] at hij ⊢
    split at hij
    · rename_i hi
      obtain rfl := Option.some.inj hij
      rw [if_neg (Nat.ne_of_lt ho), if_pos rfl, hi]
    · split at hij
      · rename_i hi
        obtain rfl := Option.some.inj hij
        rw [if_pos rfl, hi]
      · have hji := h.symm i j hij
        have hjn : j ≠ n := Nat.ne_of_lt (h.lt i j hij)
        have hjo : j ≠ o := by
          rintro rfl
          rw [hfree] at hji
          cases hji
        rw [if_neg hjn, if_neg hjo, hji]
  · rw [hget] at hij
    split at hij
    · obtain rfl := Option.some.inj hij
      omega
    · split at hij
      · obtain rfl := Option.some.inj hij
        exact Nat.lt_succ_self _
      · exact Nat.lt_succ_of_lt (h.lt i j hij)

theorem BracketScan.Sound.step {word : Nat → String} {size n : Nat} {s : BracketScan} (h : s.Sound word size n)
    (hn : n < size) : (s.step n (word n)).Sound word size (n + 1) := by
  have hopened : ∀ p ∈ s.opened, p.1 < n + 1 ∧ p.2 = word p.1 := fun p hp =>
    ⟨Nat.lt_succ_of_lt (h.opened p hp).1, (h.opened p hp).2⟩
  have hpaired := h.paired.mono (Nat.le_succ n)
  -- Nothing behind the scan is a partner yet.
  have hfresh : s.table.partner.getD n none = none := by
    cases hp : s.table.partner.getD n none with
    | none => rfl
    | some j => exact absurd (h.paired.lt j n (h.paired.symm n j hp)) (Nat.lt_irrefl n)
  unfold BracketScan.step
  split
  · refine ⟨h.size, h.matched, hpaired, fun p hp => ?_, fun p hp => ?_,
      List.pairwise_cons.2 ⟨fun p hp => ?_, h.distinct⟩⟩
    · rcases List.mem_cons.1 hp with rfl | hp
      · exact ⟨Nat.lt_succ_self n, rfl⟩
      · exact hopened p hp
    · rcases List.mem_cons.1 hp with rfl | hp
      · exact hfresh
      · exact h.free p hp
    · exact Nat.ne_of_gt (h.opened p hp).1
  · split
    · exact ⟨h.size, h.matched, hpaired, hopened, h.free, h.distinct⟩
    · rename_i opener hopener
      have hsuffix := List.dropWhile_suffix (fun p : Nat × String => p.2 != opener) (l := s.opened)
      have hsub := hsuffix.subset
      split
      · exact ⟨h.size, h.matched, hpaired, hopened, h.free, h.distinct⟩
      · rename_i o text outer hdrop
        rw [hdrop] at hsub hsuffix
        have ho := h.opened _ (hsub List.mem_cons_self)
        have htext : text = opener := by
          have := List.head?_dropWhile_not (fun p : Nat × String => p.2 != opener) s.opened
          rw [hdrop] at this
          simpa using this
        have hword : openerOf (word n) = some (word o) := by
          rw [hopener, ← htext]
          exact congrArg some ho.2
        have hbound : n < s.table.partner.size := by rw [h.size]; exact hn
        obtain ⟨hother, hdistinct⟩ := List.pairwise_cons.1 (h.distinct.sublist hsuffix.sublist)
        refine ⟨by simp only [Array.size_setIfInBounds, h.size], h.matched.set ho.1 hword,
          h.paired.set hbound ho.1 (h.free _ (hsub List.mem_cons_self)),
          fun p hp => hopened p (hsub (List.mem_cons_of_mem _ hp)), fun p hp => ?_, hdistinct⟩
        have hp' := hsub (List.mem_cons_of_mem _ hp)
        dsimp only
        rw [getD_setPair (Nat.lt_trans ho.1 hbound) hbound, if_neg (Nat.ne_of_lt (h.opened p hp').1),
          if_neg (Ne.symm (hother p hp)), h.free p hp']

theorem BracketScan.Sound.foldl {word : Nat → String} {size : Nat} :
    ∀ {texts : List String} {n : Nat} {s : BracketScan},
    (∀ k < texts.length, texts.getD k "" = word (n + k)) → n + texts.length ≤ size → s.Sound word size n →
    ((texts.zipIdx n).foldl (fun s (text, i) => s.step i text) s).Sound word size (n + texts.length)
  | [], _, _, _, _, h => h
  | t :: texts, n, s, hword, hsize, h => by
    have ht : t = word n := hword 0 (Nat.zero_lt_succ _)
    rw [List.length_cons] at hsize
    rw [List.zipIdx_cons, List.foldl_cons, List.length_cons, ← Nat.add_assoc, Nat.add_right_comm]
    refine foldl (fun k hk => ?_) (by omega) (ht ▸ h.step (by omega))
    rw [Nat.add_assoc, Nat.add_comm 1 k]
    exact hword (k + 1) (Nat.succ_lt_succ hk)

/-- What holds before anything is read. -/
theorem BracketScan.sound_start (word : Nat → String) (size : Nat) :
    BracketScan.Sound word size 0 ⟨⟨Array.replicate size none, #[]⟩, [], []⟩ := by
  have hnone : ∀ i, (Array.replicate size (none : Option Nat)).getD i none = none := by
    intro i
    rw [Array.getD_eq_getD_getElem?, Array.getElem?_replicate]
    split <;> rfl
  refine ⟨Array.size_replicate, fun i j hij => ?_, ⟨fun i j hij => ?_, fun i j hij => ?_⟩,
    fun p hp => absurd hp List.not_mem_nil, fun p hp => absurd hp List.not_mem_nil, .nil⟩ <;>
  · dsimp only at hij
    rw [hnone] at hij
    cases hij

/-- **What holds of the brackets of texts.** -/
theorem matched_ofTexts {texts : List String} {word : Nat → String}
    (hword : ∀ k < texts.length, texts.getD k "" = word k) :
    Matched word (Brackets.ofTexts texts).partner ∧ Paired texts.length (Brackets.ofTexts texts).partner := by
  have key := BracketScan.Sound.foldl (fun k hk => (hword k hk).trans (by rw [Nat.zero_add])) (by omega)
    (BracketScan.sound_start word texts.length)
  rw [Nat.zero_add] at key
  exact ⟨key.matched, key.paired⟩

namespace Outline

variable {d : Document}

theorem matched (d : Document) : Matched d.wordAt (Outline.ofDocument d).brackets.partner ∧
    Paired d.size (Outline.ofDocument d).brackets.partner := by
  have hlen : (d.tokens.toList.map (·.text)).length = d.size := List.length_map _
  rw [← hlen]
  exact matched_ofTexts fun k _ => d.getD_texts k

/-- **The bracket that closes a bracket is a closing one of its shape.** -/
theorem openerOf_closing? {i c : Nat} (h : (Outline.ofDocument d).closing? i = some c) :
    openerOf (d.wordAt c) = some (d.wordAt i) := by
  have hlt := Brackets.lt_of_closing? h
  obtain ⟨hp, -⟩ := Option.filter_eq_some_iff.1 h
  rcases (matched d).1 i c hp with ⟨-, hw⟩ | ⟨hlt', -⟩
  · exact hw
  · omega

theorem openerOf_opening? {i o : Nat} (h : (Outline.ofDocument d).opening? i = some o) :
    openerOf (d.wordAt i) = some (d.wordAt o) := by
  have hlt := Brackets.lt_of_opening? h
  obtain ⟨hp, -⟩ := Option.filter_eq_some_iff.1 h
  rcases (matched d).1 i o hp with ⟨hlt', -⟩ | ⟨-, hw⟩
  · omega
  · exact hw

theorem eq_of_openerOf {w : String} (h : openerOf w = some "(") : w = ")" := by
  unfold openerOf at h
  split at h <;> first | rfl | exact absurd h (by decide)

/-! ### Type arguments -/

theorem wordAt_angleEnd? {depth c : Nat} : ∀ {ids : List Nat}, d.angleEnd? depth ids = some c → d.wordAt c = ">"
  | [], h => nomatch h
  | j :: rest, h => by
    rw [Document.angleEnd?] at h
    split at h
    · exact wordAt_angleEnd? h
    · split at h
      · rename_i hj
        split at h
        · exact Option.some.inj h ▸ beq_iff_eq.1 hj
        · exact wordAt_angleEnd? h
      · split at h
        · exact wordAt_angleEnd? h
        · cases h

theorem wordAt_typeArgsAt? {i c : Nat} (h : d.typeArgsAt? i = some c) : d.wordAt c = ">" := by
  rw [Document.typeArgsAt?] at h
  split at h
  · exact wordAt_angleEnd? (Option.filter_eq_some_iff.1 h).1
  · cases h

/-- Between the angle brackets of a type argument list stand types and their punctuation. -/
theorem part_of_angleEnd? {c : Nat} : ∀ {n i depth : Nat}, d.angleEnd? depth (List.range' i n) = some c →
    ∀ k, i ≤ k → k ≤ c → d.isTypeArgPart k = true ∨ d.isOneOf k ["<", ">"] = true
  | 0, _, _, h => nomatch h
  | n + 1, i, depth, h => by
    intro k hik hkc
    have hone : ∀ w ∈ ["<", ">"], d.wordAt i == w → d.isOneOf i ["<", ">"] = true := by
      intro w hw hi
      rw [Document.isOneOf, List.contains_iff_mem, beq_iff_eq.1 hi]
      exact hw
    rw [List.range'_succ, Document.angleEnd?] at h
    rcases Nat.eq_or_lt_of_le hik with rfl | hik
    · split at h
      · exact .inr (hone "<" (by decide) ‹_›)
      · split at h
        · exact .inr (hone ">" (by decide) ‹_›)
        · split at h
          · exact .inl ‹_›
          · cases h
    · split at h
      · exact part_of_angleEnd? h k hik hkc
      · split at h
        · split at h
          · exact absurd (Option.some.inj h) (by omega)
          · exact part_of_angleEnd? h k hik hkc
        · split at h
          · exact part_of_angleEnd? h k hik hkc
          · cases h

theorem typeArgsAt?_of_typeArgsEnd? {i c : Nat} (h : (Outline.ofDocument d).typeArgsEnd? i = some c) :
    d.typeArgsAt? i = some c := by
  obtain ⟨hc, -⟩ := Option.filter_eq_some_iff.1 h
  have hget : ((List.range d.endOfFile).map d.typeArgsAt?).toArray.getD i none = some c := hc
  rw [Array.getD_eq_getD_getElem?, List.getElem?_toArray, List.getElem?_map] at hget
  rcases Nat.lt_or_ge i d.endOfFile with hi | hi
  · rw [List.getElem?_range hi] at hget
    exact hget
  · rw [List.getElem?_eq_none (by rw [List.length_range]; exact hi)] at hget
    cases hget

/-- What ends a type argument list is a closing angle bracket. -/
theorem isAt_typeArgsEnd? {i c : Nat} (h : (Outline.ofDocument d).typeArgsEnd? i = some c) :
    (Outline.ofDocument d).isAt c ">" = true :=
  beq_iff_eq.2 (wordAt_typeArgsAt? (typeArgsAt?_of_typeArgsEnd? h))

theorem part_of_typeArgsEnd? {i c : Nat} (h : (Outline.ofDocument d).typeArgsEnd? i = some c) :
    ∀ k, i ≤ k → k ≤ c → d.isTypeArgPart k = true ∨ d.isOneOf k ["<", ">"] = true := by
  have hat := typeArgsAt?_of_typeArgsEnd? h
  rw [Document.typeArgsAt?] at hat
  split at hat
  · exact part_of_angleEnd? (Option.filter_eq_some_iff.1 hat).1
  · cases hat

section Places

variable {step : Array (Option Nat) → Option Nat × Nat → Array (Option Nat)}
  (hnone : ∀ table i, step table (none, i) = table)
  (hsome : ∀ table c i, step table (some c, i) = table.setIfInBounds c (some i))

include hnone hsome

theorem getD_place (table : Array (Option Nat)) (place : Option Nat) (n c : Nat) :
    (step table (place, n)).getD c none = if place = some c ∧ c < table.size then some n else table.getD c none := by
  cases place with
  | none => rw [hnone, if_neg (by simp)]
  | some k =>
    rw [hsome, Array.getD_eq_getD_getElem?, Array.getElem?_setIfInBounds, Array.getD_eq_getD_getElem?]
    by_cases hk : k = c
    · subst hk
      by_cases hsize : k < table.size
      · rw [if_pos rfl, if_pos hsize, if_pos ⟨rfl, hsize⟩, Option.getD_some]
      · rw [if_pos rfl, if_neg hsize, if_neg (fun h => hsize h.2), Array.getElem?_eq_none (by omega)]
    · rw [if_neg hk, if_neg (by simp [hk])]

/-- An entry of a table that gets its entries at the places listed is the number of a place that leads there. -/
theorem origin_of_foldl_places {c v : Nat} : ∀ (places : List (Option Nat)) (n : Nat) (table : Array (Option Nat)),
    ((places.zipIdx n).foldl step table).getD c none = some v →
      table.getD c none = some v ∨ ∃ j, v = n + j ∧ places[j]? = some (some c)
  | [], n, table, h => .inl h
  | place :: places, n, table, h => by
    rw [List.zipIdx_cons, List.foldl_cons] at h
    rcases origin_of_foldl_places places (n + 1) _ h with h | ⟨j, rfl, hj⟩
    · rw [getD_place hnone hsome] at h
      by_cases hplace : place = some c ∧ c < table.size
      · rw [if_pos hplace] at h
        exact .inr ⟨0, (Option.some.inj h).symm, congrArg some hplace.1⟩
      · rw [if_neg hplace] at h
        exact .inl h
    · exact .inr ⟨j + 1, by omega, hj⟩

/-- Wherever a place leads there is an entry. -/
theorem getD_foldl_places_ne_none {c : Nat} : ∀ (places : List (Option Nat)) (n : Nat) (table : Array (Option Nat)),
    c < table.size → table.getD c none ≠ none ∨ some c ∈ places →
      ((places.zipIdx n).foldl step table).getD c none ≠ none
  | [], n, table, _, h => h.resolve_right List.not_mem_nil
  | place :: places, n, table, hc, h => by
    have hsize : (step table (place, n)).size = table.size := by
      cases place with
      | none => rw [hnone]
      | some k => rw [hsome, Array.size_setIfInBounds]
    rw [List.zipIdx_cons, List.foldl_cons]
    refine getD_foldl_places_ne_none places (n + 1) _ (hsize ▸ hc) ?_
    rw [getD_place hnone hsome]
    by_cases hplace : place = some c
    · rw [if_pos ⟨hplace, hc⟩]
      exact .inl (by simp)
    · rw [if_neg (fun h => hplace h.1)]
      exact h.imp_right fun h => (List.mem_cons.1 h).resolve_left fun h => hplace h.symm

end Places

/-- The `<` that a `>` is told to close is told to be closed by it. -/
theorem typeArgsAt?_of_typeArgsStart {c i : Nat} (h : (Outline.ofDocument d).typeArgsStart.getD c none = some i) :
    d.typeArgsAt? i = some c := by
  rcases origin_of_foldl_places (fun _ _ => rfl) (fun _ _ _ => rfl) _ 0 _ h with hnone | ⟨j, hj, hplace⟩
  · simp only [Array.getD_eq_getD_getElem?, Array.getElem?_replicate] at hnone
    split at hnone <;> cases hnone
  · rw [Nat.zero_add] at hj
    subst hj
    rw [List.getElem?_map] at hplace
    obtain ⟨k, hk, hclose⟩ := Option.map_eq_some_iff.1 hplace
    obtain ⟨hlt, rfl⟩ := List.getElem?_eq_some_iff.1 hk
    rwa [List.getElem_range] at hclose

/-- What closes a type argument list is a closing angle bracket. -/
theorem isAt_of_typeArgsStart? {c i : Nat} (h : (Outline.ofDocument d).typeArgsStart? c = some i) :
    (Outline.ofDocument d).isAt c ">" = true :=
  beq_iff_eq.2 (wordAt_typeArgsAt? (typeArgsAt?_of_typeArgsStart (Option.filter_eq_some_iff.1 h).1))

/-- An outline whose tables hold what they should. -/
structure Sound (o : Outline) : Prop where
  closing : ∀ {i c}, o.closing? i = some c → openerOf (o.word c) = some (o.word i)
  opening : ∀ {i b}, o.opening? i = some b → openerOf (o.word i) = some (o.word b)
  argsEnd : ∀ {i c}, o.typeArgsEnd? i = some c → o.isAt c ">" = true
  partner : ∀ {i j}, o.partner? i = some j → j < o.document.size ∧ o.partner? j = some i
  argsStart : ∀ {i b}, o.typeArgsStart? i = some b → o.isAt i ">" = true
  argsPart : ∀ {i c}, o.typeArgsEnd? i = some c → ∀ k, i ≤ k → k ≤ c →
    o.document.isTypeArgPart k = true ∨ o.isOneOf k ["<", ">"] = true

/-- **The tables of a document hold what they should.** -/
theorem sound_ofDocument (d : Document) : (Outline.ofDocument d).Sound where
  closing := openerOf_closing?
  opening := openerOf_opening?
  argsEnd := isAt_typeArgsEnd?
  partner h := ⟨(matched d).2.lt _ _ h, (matched d).2.symm _ _ h⟩
  argsStart := isAt_of_typeArgsStart?
  argsPart := part_of_typeArgsEnd?

theorem Sound.isAt_closing? {o : Outline} (h : o.Sound) {i c : Nat} (hc : o.closing? i = some c)
    (hi : o.isAt i "(" = true) : o.isAt c ")" = true := by
  have := h.closing hc
  rw [show o.word i = "(" from beq_iff_eq.1 hi] at this
  exact beq_iff_eq.2 (eq_of_openerOf this)

theorem Sound.closing_lt {o : Outline} (h : o.Sound) {i c : Nat} (hc : o.closing? i = some c) : c < o.document.size :=
  (h.partner (Option.filter_eq_some_iff.1 hc).1).1

/-- A bracket closes one bracket only. -/
theorem Sound.eq_of_closing? {o : Outline} (h : o.Sound) {i j c : Nat} (hi : o.closing? i = some c)
    (hj : o.closing? j = some c) : i = j := by
  have hi := (h.partner (Option.filter_eq_some_iff.1 hi).1).2
  have hj := (h.partner (Option.filter_eq_some_iff.1 hj).1).2
  exact Option.some.inj (hi.symm.trans hj)

end Outline

end LayoutLint
