import LayoutLint.Proofs.Layout.Programs
import LayoutLint.Proofs.Syntax.Balanced
/-!
# TypeArgs — how type argument lists lie in a document

The search for the end of a type argument list goes deeper at every `<` and ends one list at every `>`, so a list that
starts inside of another one ends inside of it (`Outline.typeArgs_apart_or_inside`), and each angle bracket tells the
other one of its list (`Outline.typeArgsStart?_iff`). Braces stand in no list. Parentheses and square brackets may, and
the search does not look at what they belong to: they belong together inside of the list when they come in pairs there
(`Outline.typeArgs_nest`), while `a < b) > (c` is taken for a list with one parenthesis in it.
-/
namespace LayoutLint

namespace Document

variable {d : Document}

/-! ### The search for the end of a list -/

theorem angleEnd?_opens {i : Nat} (hi : d.wordAt i = "<") (depth n : Nat) :
    d.angleEnd? depth (List.range' i (n + 1)) = d.angleEnd? (depth + 1) (List.range' (i + 1) n) := by
  rw [List.range'_succ, angleEnd?, hi]
  rfl

theorem angleEnd?_bounds {c : Nat} : ∀ {n i depth : Nat}, d.angleEnd? depth (List.range' i n) = some c →
    i ≤ c ∧ c < i + n
  | 0, _, _, h => nomatch h
  | n + 1, i, depth, h => by
    rw [List.range'_succ, angleEnd?] at h
    split at h
    · have := angleEnd?_bounds h
      omega
    · split at h
      · split at h
        · have := Option.some.inj h
          omega
        · have := angleEnd?_bounds h
          omega
      · split at h
        · have := angleEnd?_bounds h
          omega
        · cases h

/-- Inside of a list the search goes on at every token, in the list or deeper. -/
theorem angleEnd?_inside {c k : Nat} : ∀ {n i depth : Nat}, d.angleEnd? depth (List.range' i n) = some c → 0 < depth →
    i ≤ k → k ≤ c → ∃ m deeper, 0 < deeper ∧ d.angleEnd? deeper (List.range' k (m + 1)) = some c
  | 0, _, _, h, _, _, _ => nomatch h
  | n + 1, i, depth, h, hdepth, hik, hkc => by
    rcases Nat.eq_or_lt_of_le hik with rfl | hik
    · exact ⟨n, depth, hdepth, h⟩
    · rw [List.range'_succ, angleEnd?] at h
      split at h
      · exact angleEnd?_inside h (Nat.succ_pos _) hik hkc
      · split at h
        · split at h
          · have := Option.some.inj h
            omega
          · rename_i hone
            have hone : depth ≠ 1 := fun h => hone (beq_iff_eq.2 h)
            exact angleEnd?_inside h (by omega) hik hkc
        · split at h
          · exact angleEnd?_inside h hdepth hik hkc
          · cases h

/-- **A deeper list ends first.** -/
theorem angleEnd?_lt {c c' : Nat} : ∀ {n m i depth deeper : Nat}, d.angleEnd? depth (List.range' i n) = some c →
    d.angleEnd? deeper (List.range' i m) = some c' → 0 < deeper → deeper < depth → c' < c
  | 0, _, _, _, _, h, _, _, _ => nomatch h
  | _ + 1, 0, _, _, _, _, h', _, _ => nomatch h'
  | n + 1, m + 1, i, depth, deeper, h, h', hpos, hlt => by
    -- Both searches read the same token, so the one keeps having more lists to end than the other.
    rw [List.range'_succ, angleEnd?] at h h'
    by_cases hopens : (d.wordAt i == "<") = true
    · rw [if_pos hopens] at h h'
      exact angleEnd?_lt h h' (Nat.succ_pos _) (Nat.succ_lt_succ hlt)
    · rw [if_neg hopens] at h h'
      by_cases hcloses : (d.wordAt i == ">") = true
      · rw [if_pos hcloses] at h h'
        rw [if_neg (by rw [beq_iff_eq]; omega)] at h
        split at h'
        · have := angleEnd?_bounds h
          have := Option.some.inj h'
          omega
        · rename_i hone
          have hone : deeper ≠ 1 := fun h => hone (beq_iff_eq.2 h)
          exact angleEnd?_lt h h' (by omega) (by omega)
      · rw [if_neg hcloses] at h h'
        by_cases hpart : d.isTypeArgPart i = true
        · rw [if_pos hpart] at h h'
          exact angleEnd?_lt h h' hpos hlt
        · rw [if_neg hpart] at h
          cases h

/-- A list starts with its `<`, and the search goes on behind that. -/
theorem of_typeArgsAt? {i c : Nat} (h : d.typeArgsAt? i = some c) :
    d.wordAt i = "<" ∧ ∃ n, d.angleEnd? 1 (List.range' (i + 1) n) = some c ∧ i + 1 + n ≤ d.endOfFile := by
  rw [typeArgsAt?] at h
  split at h
  · rename_i hi
    have hi : d.wordAt i = "<" := beq_iff_eq.1 (Bool.and_eq_true_iff.1 (Bool.and_eq_true_iff.1 hi).1).2
    obtain ⟨h, -⟩ := Option.filter_eq_some_iff.1 h
    obtain ⟨n, hn⟩ : ∃ n, min typeArgWindow (d.endOfFile - i) = n + 1 := by
      refine Nat.exists_eq_succ_of_ne_zero fun hzero => ?_
      rw [hzero] at h
      cases h
    rw [hn, angleEnd?_opens hi] at h
    exact ⟨hi, n, h, by omega⟩
  · cases h

end Document

namespace Outline

variable {d : Document}

/-! ### Lists in a document -/

theorem lt_eof_of_typeArgsAt? {i c : Nat} (h : d.typeArgsAt? i = some c) : i < c ∧ c < d.endOfFile := by
  obtain ⟨-, n, hn, hlt⟩ := Document.of_typeArgsAt? h
  have := Document.angleEnd?_bounds hn
  omega

theorem typeArgsEnd?_iff {i c : Nat} : (ofDocument d).typeArgsEnd? i = some c ↔ d.typeArgsAt? i = some c := by
  refine ⟨typeArgsAt?_of_typeArgsEnd?, fun h => ?_⟩
  obtain ⟨hic, hc⟩ := lt_eof_of_typeArgsAt? h
  refine Option.filter_eq_some_iff.2 ⟨?_, decide_eq_true hic⟩
  show ((List.range d.endOfFile).map d.typeArgsAt?).toArray.getD i none = some c
  rw [Array.getD_eq_getD_getElem?, List.getElem?_toArray, List.getElem?_map, List.getElem?_range (by omega),
    Option.map_some, h]
  rfl

/-- **A list that starts in another one ends in it.** -/
theorem typeArgs_apart_or_inside {i c j b : Nat} (hi : (ofDocument d).typeArgsEnd? i = some c)
    (hj : (ofDocument d).typeArgsEnd? j = some b) (hij : i < j) : c < j ∨ b < c := by
  obtain ⟨-, n, hn, -⟩ := Document.of_typeArgsAt? (typeArgsEnd?_iff.1 hi)
  obtain ⟨hopens, m, hm, -⟩ := Document.of_typeArgsAt? (typeArgsEnd?_iff.1 hj)
  rcases Nat.lt_or_ge c j with hcj | hjc
  · exact .inl hcj
  · obtain ⟨l, deeper, hdeeper, hl⟩ := Document.angleEnd?_inside hn Nat.zero_lt_one hij hjc
    rw [Document.angleEnd?_opens hopens] at hl
    exact .inr (Document.angleEnd?_lt hl hm Nat.zero_lt_one (by omega))

/-- A `>` ends one list only. -/
theorem eq_of_typeArgsEnd? {i j c : Nat} (hi : (ofDocument d).typeArgsEnd? i = some c)
    (hj : (ofDocument d).typeArgsEnd? j = some c) : i = j := by
  have := lt_of_typeArgsEnd? hi
  have := lt_of_typeArgsEnd? hj
  rcases Nat.lt_trichotomy i j with hlt | heq | hlt
  · have := typeArgs_apart_or_inside hi hj hlt
    omega
  · exact heq
  · have := typeArgs_apart_or_inside hj hi hlt
    omega

/-- **The angle brackets of a list tell one another.** -/
theorem typeArgsStart?_iff {i c : Nat} :
    (ofDocument d).typeArgsStart? c = some i ↔ (ofDocument d).typeArgsEnd? i = some c := by
  constructor
  · intro h
    exact typeArgsEnd?_iff.2 (typeArgsAt?_of_typeArgsStart (Option.filter_eq_some_iff.1 h).1)
  · intro h
    obtain ⟨hic, hc⟩ := lt_eof_of_typeArgsAt? (typeArgsEnd?_iff.1 h)
    have hs := d.size_eq
    have hmem : some c ∈ (List.range d.endOfFile).map d.typeArgsAt? :=
      List.mem_map.2 ⟨i, List.mem_range.2 (by omega), typeArgsEnd?_iff.1 h⟩
    have hentry : (ofDocument d).typeArgsStart.getD c none ≠ none :=
      getD_foldl_places_ne_none (fun _ _ => rfl) (fun _ _ _ => rfl) _ 0 (Array.replicate d.size none)
        (by rw [Array.size_replicate]; omega) (.inr hmem)
    obtain ⟨j, hj⟩ := Option.ne_none_iff_exists'.1 hentry
    obtain rfl := eq_of_typeArgsEnd? h (typeArgsEnd?_iff.2 (typeArgsAt?_of_typeArgsStart hj))
    exact Option.filter_eq_some_iff.2 ⟨hj, decide_eq_true hic⟩

/-! ### Lists and brackets -/

/-- A bracket with a partner opens or closes something, and so does its partner. -/
theorem bracket_of_partner? {a b : Nat} (h : (ofDocument d).partner? a = some b) :
    isOpener (d.wordAt a) = true ∨ openerOf (d.wordAt a) ≠ none := by
  rcases (matched d).1 a b h with ⟨-, hclose⟩ | ⟨-, hclose⟩
  · exact .inl (isOpener_of_closes hclose)
  · exact .inr (by rw [hclose]; exact Option.some_ne_none _)

/-- **Balanced brackets in a list belong to one another.** -/
theorem inside_iff_of_balanced {i c a b : Nat} (hic : i < c) (hc : c < d.size)
    (balanced : Balanced d.wordAt (List.range' (i + 1) (c - (i + 1)))) (hab : (ofDocument d).partner? a = some b) :
    i < a ∧ a < c ↔ i < b ∧ b < c := by
  have inside : ∀ {x y : Nat}, (ofDocument d).partner? x = some y → i < x ∧ x < c → i < y ∧ y < c := by
    intro x y hxy hx
    obtain ⟨z, hz, hzc, hxz⟩ := partner_of_balanced balanced rfl (by omega) x hx.1 (by omega) (bracket_of_partner? hxy)
    obtain rfl := Option.some.inj (hxz.symm.trans hxy)
    omega
  exact ⟨inside hab, inside ((sound_ofDocument d).partner hab).2⟩

/-- An opening or a closing brace. -/
def IsBrace (d : Document) (i : Nat) : Prop := d.wordAt i = "\x7b" ∨ d.wordAt i = "\x7d"

theorem isBrace_of_partner? {a b : Nat} (h : (ofDocument d).partner? a = some b) (ha : IsBrace d a) : IsBrace d b := by
  rcases (matched d).1 a b h with ⟨-, hclose⟩ | ⟨-, hclose⟩
  · unfold openerOf at hclose
    split at hclose
    · rcases ha with ha | ha <;> exact absurd (Option.some.inj hclose) (by rw [ha]; decide)
    · rcases ha with ha | ha <;> exact absurd (Option.some.inj hclose) (by rw [ha]; decide)
    · rename_i hb
      exact .inr hb
    · cases hclose
  · rcases ha with ha | ha <;> rw [ha] at hclose
    · cases hclose
    · exact .inl (Option.some.inj hclose).symm

/-- Braces stand in no list. -/
theorem not_inside_of_isBrace (h : d.Parsed) {i c k : Nat} (hi : (ofDocument d).typeArgsEnd? i = some c)
    (hk : IsBrace d k) : ¬ (i < k ∧ k < c) := by
  rintro ⟨hik, hkc⟩
  have hkind : d.kindAt k = .punctuation := by
    rcases hk with hk | hk
    · exact h.kindAt_of_head (c := '\x7b') (w := []) (by rw [hk]; rfl) fun s => by
        rw [scan_single (by decide) (by decide) (by decide) (by decide) (by decide) (by decide) (by decide) (by decide)]
    · exact h.kindAt_of_head (c := '\x7d') (w := []) (by rw [hk]; rfl) fun s => by
        rw [scan_single (by decide) (by decide) (by decide) (by decide) (by decide) (by decide) (by decide) (by decide)]
  have hpart := part_of_typeArgsEnd? hi k (Nat.le_of_lt hik) (Nat.le_of_lt hkc)
  unfold Document.isTypeArgPart Document.isPredefined Document.isOneOf at hpart
  rcases hk with hk | hk <;> rw [hkind, hk] at hpart <;> exact absurd hpart (by decide)

/-- Two lists from `i` to `c` and from `j` to `b` share no angle bracket, and one of them is in front of the other one
or inside of it. -/
def Uncrossed (i c j b : Nat) : Prop := b ≠ c ∧ b ≠ i ∧ j ≠ c ∧ (c < j ∨ b < i ∨ (i < j ∧ b < c) ∨ (j < i ∧ c < b))

/-- **How type argument lists lie among one another and among brackets**: their angle brackets tell one another, two of
them never cross, and they hold both or none of two brackets that belong together, if these are braces or the brackets
in the list are balanced. -/
theorem typeArgs_nest {s : String} (h : Document.ofSource s = .ok d) {i c : Nat}
    (hi : (ofDocument d).typeArgsEnd? i = some c) :
    (∀ j b, (ofDocument d).typeArgsStart? b = some j ↔ (ofDocument d).typeArgsEnd? j = some b) ∧
      (∀ j b, (ofDocument d).typeArgsEnd? j = some b → j ≠ i → Uncrossed i c j b) ∧
      ∀ a b, (ofDocument d).partner? a = some b →
        IsBrace d a ∨ Balanced d.wordAt (List.range' (i + 1) (c - (i + 1))) → (i < a ∧ a < c ↔ i < b ∧ b < c) := by
  obtain ⟨hd, -⟩ := Document.parsed_of_ofSource h
  obtain ⟨hic, hc⟩ := lt_eof_of_typeArgsAt? (typeArgsEnd?_iff.1 hi)
  have hs := d.size_eq
  refine ⟨fun j b => typeArgsStart?_iff, fun j b hj hne => ?_, fun a b hab hcase => ?_⟩
  · have hjb := lt_of_typeArgsEnd? hj
    rcases Nat.lt_or_gt_of_ne hne with hlt | hlt
    · have := typeArgs_apart_or_inside hj hi hlt
      exact ⟨by omega, by omega, by omega, by omega⟩
    · have := typeArgs_apart_or_inside hi hj hlt
      exact ⟨by omega, by omega, by omega, by omega⟩
  · rcases hcase with hbrace | hbalanced
    · exact iff_of_false (not_inside_of_isBrace hd hi hbrace)
        (not_inside_of_isBrace hd hi (isBrace_of_partner? hab hbrace))
    · exact inside_iff_of_balanced hic (by omega) hbalanced hab

/-- A list of a tuple with a list in it. -/
theorem typeArgs_nest_tuple : ∃ d, Document.ofSource "x = F<(int, G<int>)>(y);" = .ok d ∧
    (ofDocument d).typeArgsEnd? 3 = some 12 ∧ (ofDocument d).typeArgsStart? 12 = some 3 ∧
    (ofDocument d).typeArgsEnd? 8 = some 10 ∧ Uncrossed 3 12 8 10 := by
  obtain ⟨d, hd, h⟩ := exists_ok_of_any (e := Document.ofSource "x = F<(int, G<int>)>(y);") (p := fun d =>
    (ofDocument d).typeArgsEnd? 3 == some 12 && (ofDocument d).typeArgsEnd? 8 == some 10) (by decide +kernel)
  simp only [Bool.and_eq_true, beq_iff_eq] at h
  obtain ⟨hstart, hapart, -⟩ := typeArgs_nest hd h.1
  exact ⟨d, hd, h.1, (hstart 3 12).2 h.1, h.2, hapart 8 10 h.2 (by decide)⟩

/-- A comparison on either side of a parenthesis is taken for a list. -/
theorem typeArgs_cross : ∃ d, Document.ofSource "f(a < b) > (c);" = .ok d ∧
    (ofDocument d).typeArgsEnd? 3 = some 6 ∧ (ofDocument d).partner? 1 = some 5 := by
  obtain ⟨d, hd, h⟩ := exists_ok_of_any (e := Document.ofSource "f(a < b) > (c);") (p := fun d =>
    (ofDocument d).typeArgsEnd? 3 == some 6 && (ofDocument d).partner? 1 == some 5) (by decide +kernel)
  simp only [Bool.and_eq_true, beq_iff_eq] at h
  exact ⟨d, hd, h⟩

end Outline

end LayoutLint
