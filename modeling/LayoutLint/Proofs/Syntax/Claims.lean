import LayoutLint.Proofs.Syntax.NodeGaps
import Mathlib.Data.List.Nodup
/-!
# Claims — no gap is claimed twice

The families of shapes are found one after another, and a gap is told by its second token. Within a family the second
tokens differ: an attribute belongs to the list that its bracket closes, and no `new` stands in a type name. Between
families they differ because a later family leaves the parentheses alone that an earlier one has claimed, or because
what stands in front of them is not the same (`nodup_gapRights`).
-/
namespace LayoutLint

/-- The second token of the gap that a node is about. -/
def SyntaxNode.gapRight? (n : SyntaxNode) : Option Nat := n.gap?.map fun g => g.2.2

/-- The second tokens of the gaps that nodes are about. -/
def gapRights (nodes : List SyntaxNode) : List Nat := nodes.filterMap SyntaxNode.gapRight?

theorem gapRights_append (ms ns : List SyntaxNode) : gapRights (ms ++ ns) = gapRights ms ++ gapRights ns :=
  List.filterMap_append

theorem gapRights_flatMap {α : Type} (f : α → List SyntaxNode) (l : List α) :
    gapRights (l.flatMap f) = l.flatMap fun a => gapRights (f a) := List.filterMap_flatMap

/-- The gaps of nodes that are told by what they are made of. -/
theorem gapRights_map {α : Type} {f : α → SyntaxNode} {g : α → Nat} (h : ∀ a, (f a).gapRight? = some (g a))
    (l : List α) : gapRights (l.map f) = l.map g := by
  rw [gapRights, List.filterMap_map, ← List.filterMap_eq_map]
  exact List.filterMap_congr fun a _ => h a

theorem gapRights_eq_nil {nodes : List SyntaxNode} (h : ∀ n ∈ nodes, n.gap? = none) : gapRights nodes = [] := by
  rw [gapRights, List.filterMap_eq_nil_iff]
  intro n hn
  rw [SyntaxNode.gapRight?, h n hn]
  rfl

namespace Outline

variable {o : Outline}

/-- What a search from each token finds, told by the tokens in their order. -/
theorem pairwise_filterMap_ids {α : Type} {f : Nat → Option α} {r : α → α → Prop}
    (h : ∀ i j, i < j → ∀ a b, f i = some a → f j = some b → r a b) : (o.ids.filterMap f).Pairwise r := by
  rw [List.pairwise_filterMap]
  exact List.pairwise_lt_range.imp fun {i j} hij a ha b hb => h i j hij a b ha hb

/-! ### Attributes -/

/-- The attributes from a token on: the first one, and those behind its comma. -/
theorem attributesFrom?_cases {close i : Nat} {as : List (String × Option (Nat × Nat))}
    (h : o.attributesFrom? close i = some as) : ∃ name next rest,
      o.afterParens? (o.attributeNameEnd i + 1) = some next ∧
      as = (name, if o.isAt (o.attributeNameEnd i + 1) "(" then
        some (o.attributeNameEnd i, o.attributeNameEnd i + 1) else none) :: rest ∧
      ((o.isAt next "," = true ∧ o.attributesFrom? close (next + 1) = some rest) ∨
        (o.isAt next "," = false ∧ next = close ∧ rest = [])) := by
  unfold Outline.attributesFrom? at h
  split at h
  · dsimp only at h
    split at h
    · cases h
    · rename_i next hnext
      split at h
      · rename_i hcomma
        obtain ⟨rest, hrest, rfl⟩ := Option.map_eq_some_iff.1 h
        exact ⟨_, next, rest, hnext, rfl, .inl ⟨hcomma, hrest⟩⟩
      · rename_i hcomma
        split at h
        · rename_i hend
          obtain rfl := Option.some.inj h
          rw [Bool.and_eq_true, beq_iff_eq] at hend
          exact ⟨_, next, [], hnext, rfl, .inr ⟨Bool.eq_false_iff.2 hcomma, hend.2, rfl⟩⟩
        · cases h
  · cases h

/-- The bracket that closes a list of attributes is told by where the list goes on. -/
theorem close_of_attributesFrom? {close close' i : Nat} {as as' : List (String × Option (Nat × Nat))}
    (h : o.attributesFrom? close i = some as) (h' : o.attributesFrom? close' i = some as') : close = close' := by
  induction as generalizing i as' with
  | nil =>
    obtain ⟨name, next, rest, -, has, -⟩ := attributesFrom?_cases h
    cases has
  | cons a as ih =>
    obtain ⟨name, next, rest, hnext, has, hrest⟩ := attributesFrom?_cases h
    obtain ⟨name', next', rest', hnext', -, hrest'⟩ := attributesFrom?_cases h'
    obtain rfl : next = next' := Option.some.inj (hnext.symm.trans hnext')
    obtain ⟨-, rfl⟩ := List.cons.inj has
    rcases hrest with ⟨hcomma, hrest⟩ | ⟨hcomma, hclose, -⟩
    · rcases hrest' with ⟨-, hrest'⟩ | ⟨hcomma', -⟩
      · exact ih hrest hrest'
      · exact absurd (hcomma.symm.trans hcomma') (by decide)
    · rcases hrest' with ⟨hcomma', -⟩ | ⟨-, hclose', -⟩
      · exact absurd (hcomma'.symm.trans hcomma) (by decide)
      · exact hclose.symm.trans hclose'

/-- The parenthesis stands in a list of attributes that the bracket `close` ends. -/
def EndsAt (o : Outline) (close opening : Nat) : Prop :=
  ∃ next, o.afterParens? opening = some next ∧
    ((o.isAt next "," = true ∧ ∃ as, o.attributesFrom? close (next + 1) = some as) ∨
      (o.isAt next "," = false ∧ next = close))

/-- A parenthesis stands in one list of attributes only. -/
theorem EndsAt.unique {close close' opening : Nat} (h : o.EndsAt close opening) (h' : o.EndsAt close' opening) :
    close = close' := by
  obtain ⟨next, hnext, hrest⟩ := h
  obtain ⟨next', hnext', hrest'⟩ := h'
  obtain rfl : next = next' := Option.some.inj (hnext.symm.trans hnext')
  rcases hrest with ⟨hcomma, as, has⟩ | ⟨hcomma, hclose⟩
  · rcases hrest' with ⟨-, as', has'⟩ | ⟨hcomma', -⟩
    · exact close_of_attributesFrom? has has'
    · exact absurd (hcomma.symm.trans hcomma') (by decide)
  · rcases hrest' with ⟨hcomma', -⟩ | ⟨-, hclose'⟩
    · exact absurd (hcomma'.symm.trans hcomma) (by decide)
    · exact hclose.symm.trans hclose'

/-- The arguments of the attributes of a list: they follow one another, and their list is told by each of them. -/
theorem arguments_of_attributesFrom? {close i : Nat} {as : List (String × Option (Nat × Nat))}
    (h : o.attributesFrom? close i = some as) :
    (∀ p ∈ as.filterMap (·.2), i < p.2 ∧ o.EndsAt close p.2) ∧
      (as.filterMap (·.2)).Pairwise fun p q => p.2 < q.2 := by
  induction as generalizing i with
  | nil => exact ⟨fun p hp => absurd hp List.not_mem_nil, .nil⟩
  | cons a as ih =>
    obtain ⟨name, next, rest, hnext, has, hrest⟩ := attributesFrom?_cases h
    obtain ⟨rfl, rfl⟩ := List.cons.inj has
    have hle := le_of_afterParens? hnext
    have hname := o.le_attributeNameEnd i
    have ih : (∀ p ∈ as.filterMap (·.2), next + 1 < p.2 ∧ o.EndsAt close p.2) ∧
        (as.filterMap (·.2)).Pairwise fun p q => p.2 < q.2 := by
      rcases hrest with ⟨-, hrest⟩ | ⟨-, -, rfl⟩
      · exact ih hrest
      · exact ⟨fun p hp => absurd hp List.not_mem_nil, .nil⟩
    have hbehind : ∀ p ∈ as.filterMap (·.2), o.attributeNameEnd i + 1 < p.2 ∧ o.EndsAt close p.2 := fun p hp =>
      ⟨by have := (ih.1 p hp).1; omega, (ih.1 p hp).2⟩
    split
    · have hends : o.EndsAt close (o.attributeNameEnd i + 1) := by
        refine ⟨next, hnext, hrest.imp (fun h => ⟨h.1, as, h.2⟩) fun h => ⟨h.1, h.2.1⟩⟩
      simp only [List.filterMap_cons]
      refine ⟨fun p hp => ?_, List.pairwise_cons.2 ⟨fun p hp => (hbehind p hp).1, ih.2⟩⟩
      rcases List.mem_cons.1 hp with rfl | hp
      · exact ⟨by dsimp only; omega, hends⟩
      · exact ⟨by have := (hbehind p hp).1; omega, (hbehind p hp).2⟩
    · simp only [List.filterMap_cons]
      exact ⟨fun p hp => ⟨by have := (hbehind p hp).1; omega, (hbehind p hp).2⟩, ih.2⟩

/-- The parentheses of an attribute list. -/
theorem opens_of_attributeListAt? {i : Nat} {l : AttributeList} (h : o.attributeListAt? i = some l) :
    o.closing? i = some l.closing ∧ (l.arguments.map (·.2)).Nodup ∧ ∀ p ∈ l.arguments.map (·.2),
      o.EndsAt l.closing p := by
  rw [Outline.attributeListAt?] at h
  obtain ⟨closing, hclosing, h⟩ := Option.bind_eq_some_iff.1 h
  obtain ⟨as, has, h⟩ := Option.bind_eq_some_iff.1 h
  obtain rfl := Option.some.inj h
  obtain ⟨hends, hlt⟩ := arguments_of_attributesFrom? has
  refine ⟨hclosing, List.pairwise_map.2 (hlt.imp fun h => Nat.ne_of_lt h), fun p hp => ?_⟩
  obtain ⟨q, hq, rfl⟩ := List.mem_map.1 hp
  exact (hends q hq).2

/-- **Attribute lists that different brackets close share no parenthesis.** -/
theorem nodup_attributeOpens {lists : List AttributeList} (hlists : ∀ l ∈ lists, ∃ i, o.attributeListAt? i = some l)
    (hclosing : lists.Pairwise fun l l' => l.closing ≠ l'.closing) :
    (lists.flatMap fun l => l.arguments.map (·.2)).Nodup := by
  rw [List.nodup_flatMap]
  refine ⟨fun l hl => ?_, hclosing.imp_of_mem fun {l l'} hl hl' hne p hp hp' => hne ?_⟩
  · obtain ⟨i, hi⟩ := hlists l hl
    exact (opens_of_attributeListAt? hi).2.1
  · obtain ⟨i, hi⟩ := hlists l hl
    obtain ⟨j, hj⟩ := hlists l' hl'
    exact ((opens_of_attributeListAt? hi).2.2 p hp).unique ((opens_of_attributeListAt? hj).2.2 p hp')

/-- The table of names knows the closing bracket of every list that it was made from. -/
theorem isSome_foldl_names {c : Nat} (lists : List AttributeList) (table : Array (Option (List String)))
    (hc : c < table.size) (h : (∃ l ∈ lists, l.closing = c) ∨ (table.getD c none).isSome = true) :
    ((lists.foldl (fun table l => table.setIfInBounds l.closing (some l.names)) table).getD c none).isSome = true := by
  induction lists generalizing table with
  | nil =>
    rcases h with ⟨l, hl, -⟩ | h
    · cases hl
    · exact h
  | cons l lists ih =>
    rw [List.foldl_cons]
    refine ih _ (by rwa [Array.size_setIfInBounds]) ?_
    rw [Array.getD_eq_getD_getElem?, Array.getElem?_setIfInBounds]
    by_cases hl : l.closing = c
    · right
      rw [if_pos hl, if_pos (hl ▸ hc)]
      rfl
    · rw [if_neg hl]
      refine h.imp (fun ⟨l', hl', heq⟩ => ⟨l', ?_, heq⟩) fun h => by rwa [Array.getD_eq_getD_getElem?] at h
      exact (List.mem_cons.1 hl').resolve_left fun h => hl (h ▸ heq)

/-- Different tokens open lists that different brackets close. -/
theorem Sound.pairwise_closing (ho : o.Sound) {p : Nat → Bool} :
    (o.ids.filterMap fun i => if p i then o.attributeListAt? i else none).Pairwise fun l l' =>
      l.closing ≠ l'.closing := by
  refine pairwise_filterMap_ids fun i j hij l l' hl hl' heq => ?_
  split at hl
  · split at hl'
    · have hi := (opens_of_attributeListAt? hl).1
      have hj := (opens_of_attributeListAt? hl').1
      exact Nat.ne_of_lt hij (ho.eq_of_closing? hi (heq ▸ hj))
    · cases hl'
  · cases hl

/-! ### Creations -/

theorem not_new_of_isOneOf {i : Nat} (words : List String) (h : o.isOneOf i words = true)
    (hw : words.contains "new" = false) : o.isKeyword i "new" = false := by
  rw [Outline.isKeyword, Document.isKeywordAt, Bool.and_eq_false_iff]
  right
  rw [beq_eq_false_iff_ne]
  intro heq
  rw [isOneOf, Document.isOneOf, heq, hw] at h
  cases h

theorem not_new_of_isAt {i : Nat} {word : String} (h : o.isAt i word = true) (hw : word ≠ "new") :
    o.isKeyword i "new" = false :=
  not_new_of_isOneOf [word] (List.contains_iff_mem.2 (List.mem_singleton.2 (beq_iff_eq.1 h)))
    (by simpa using Ne.symm hw)

theorem not_new_of_isIdentifier {i : Nat} (h : o.isIdentifier i = true) : o.isKeyword i "new" = false := by
  have hk : o.document.kindAt i = .identifier := beq_iff_eq.1 h
  rw [Outline.isKeyword, Document.isKeywordAt, hk]
  rfl

theorem not_new_of_isPredefined {i : Nat} (h : o.isPredefined i = true) : o.isKeyword i "new" = false := by
  rw [Outline.isPredefined, Document.isPredefined, Bool.and_eq_true] at h
  exact not_new_of_isOneOf predefinedTypes h.2 (by decide)

/-- No `new` stands between the brackets of type arguments. -/
theorem Sound.not_new_of_typeArgsEnd? (ho : o.Sound) {i c : Nat} (h : o.typeArgsEnd? i = some c) {k : Nat} (hi : i ≤ k)
    (hk : k ≤ c) : o.isKeyword k "new" = false := by
  rcases ho.argsPart h k hi hk with h | h
  · rw [Document.isTypeArgPart, Bool.or_eq_true, Bool.or_eq_true, Bool.or_eq_true] at h
    rcases h with ((h | h) | h) | h
    · exact not_new_of_isOneOf Document.typePunctuation h (by decide)
    · exact not_new_of_isIdentifier h
    · exact not_new_of_isPredefined h
    · exact not_new_of_isOneOf ["in", "out"] h (by decide)
  · exact not_new_of_isOneOf _ h (by decide)

theorem Sound.not_new_of_qualifiedEnd (ho : o.Sound) {i : Nat} (hi : o.isKeyword i "new" = false) :
    i ≤ o.qualifiedEnd i ∧ ∀ k, i ≤ k → k ≤ o.qualifiedEnd i → o.isKeyword k "new" = false := by
  have hfirst : ∀ i, o.isKeyword i "new" = false → i ≤ (o.typeArgsEnd? (i + 1)).getD i ∧
      ∀ k, i ≤ k → k ≤ (o.typeArgsEnd? (i + 1)).getD i → o.isKeyword k "new" = false := by
    intro i hi
    cases ha : o.typeArgsEnd? (i + 1) with
    | none => exact ⟨Nat.le_refl _, fun k hik hk => Nat.le_antisymm hik hk ▸ hi⟩
    | some c =>
      have := lt_of_typeArgsEnd? ha
      refine ⟨by simp only [Option.getD_some]; omega, fun k hik hk => ?_⟩
      rcases Nat.eq_or_lt_of_le hik with rfl | hik
      · exact hi
      · exact ho.not_new_of_typeArgsEnd? ha hik hk
  fun_induction qualifiedEnd o i with
  | case1 i last hc ih =>
    rw [Bool.and_eq_true, beq_iff_eq] at hc
    obtain ⟨hle, hnew⟩ := hfirst i hi
    have hid : o.isIdentifier (last + 2) = true := beq_iff_eq.2 hc.2
    obtain ⟨hle', hnew'⟩ := ih (not_new_of_isIdentifier hid)
    have hle : i ≤ last := hle
    refine ⟨by omega, fun k hik hk => ?_⟩
    rcases Nat.lt_or_ge last k with hlast | hlast
    · rcases Nat.eq_or_lt_of_le hlast with hk' | hk'
      · rw [← hk']
        exact not_new_of_isOneOf _ hc.1 (by decide)
      · exact hnew' k hk' hk
    · exact hnew k hik hlast
  | case2 i last hc => exact hfirst i hi

theorem not_new_of_nullableEnd {i : Nat} (hi : o.isKeyword i "new" = false) :
    i ≤ o.nullableEnd i ∧ ∀ k, i ≤ k → k ≤ o.nullableEnd i → o.isKeyword k "new" = false := by
  fun_induction nullableEnd o i with
  | case1 i hc ih =>
    rw [Bool.and_eq_true] at hc
    obtain ⟨hle, hnew⟩ := ih (not_new_of_isAt hc.2 (by decide))
    refine ⟨by omega, fun k hik hk => ?_⟩
    rcases Nat.eq_or_lt_of_le hik with rfl | hik
    · exact hi
    · exact hnew k hik hk
  | case2 i hc => exact ⟨Nat.le_refl _, fun k hik hk => Nat.le_antisymm hik hk ▸ hi⟩

/-- **No `new` stands in a type name.** -/
theorem Sound.not_new_of_typeNameEnd? (ho : o.Sound) {i last : Nat} (h : o.typeNameEnd? i = some last) :
    i ≤ last ∧ ∀ k, i ≤ k → k ≤ last → o.isKeyword k "new" = false := by
  rw [typeNameEnd?] at h
  have key : ∀ first, (if o.isIdentifier first || o.isPredefined first then
        some (o.nullableEnd (o.qualifiedEnd first)) else none) = some last →
      first ≤ last ∧ ∀ k, first ≤ k → k ≤ last → o.isKeyword k "new" = false := by
    intro first h
    split at h
    · rename_i hf
      obtain rfl := Option.some.inj h
      have hnew := (Bool.or_eq_true_iff.1 hf).elim not_new_of_isIdentifier not_new_of_isPredefined
      obtain ⟨hle, hnew⟩ := ho.not_new_of_qualifiedEnd hnew
      obtain ⟨hle', hnew'⟩ := not_new_of_nullableEnd (hnew _ hle (Nat.le_refl _))
      refine ⟨Nat.le_trans hle hle', fun k hik hk => ?_⟩
      rcases Nat.le_total k (o.qualifiedEnd first) with hq | hq
      · exact hnew k hik hq
      · exact hnew' k hq hk
    · cases h
  split at h
  · rename_i hg
    rw [Bool.and_eq_true] at hg
    obtain ⟨hle, hnew⟩ := key _ h
    refine ⟨by omega, fun k hik hk => ?_⟩
    rcases Nat.lt_or_ge k (i + 2) with hlt | hge
    · rcases Nat.eq_or_lt_of_le hik with rfl | hik
      · exact not_new_of_isAt hg.1 (by decide)
      · rw [show k = i + 1 by omega]
        exact not_new_of_isAt hg.2 (by decide)
    · exact hnew k hge hk
  · exact key _ h

/-! ### The families -/

/-- What a family claims: each parenthesis once, none that is claimed already, each behind a word. -/
structure Claims (o : Outline) (claimed opens : List Nat) : Prop where
  nodup : opens.Nodup
  free : ∀ i ∈ opens, i ∉ claimed
  head : ∀ i ∈ opens, ∃ left, i = left + 1 ∧ o.IsHead left

/-- The claims of a family are added to those of the families before it. -/
theorem Claims.append {claimed opens : List Nat} (h : o.Claims [] claimed) (h' : o.Claims claimed opens) :
    o.Claims [] (claimed ++ opens) where
  nodup := h.nodup.append h'.nodup fun i hi hi' => h'.free i hi' hi
  free _ _ := List.not_mem_nil
  head i hi := (List.mem_append.1 hi).elim (h.head i) (h'.head i)

theorem Sound.claims_attributes (ho : o.Sound) {lists : List AttributeList} {claimed : List Nat}
    (hlists : ∀ l ∈ lists, ∃ i, o.attributeListAt? i = some l)
    (hclosing : lists.Pairwise fun l l' => l.closing ≠ l'.closing)
    (hfree : ∀ i ∈ lists.flatMap fun l => l.arguments.map (·.2), i ∉ claimed) :
    o.Claims claimed (lists.flatMap fun l => l.arguments.map (·.2)) := by
  refine ⟨nodup_attributeOpens hlists hclosing, hfree, fun i hi => ?_⟩
  obtain ⟨l, hl, hi⟩ := List.mem_flatMap.1 hi
  obtain ⟨p, hp, heq⟩ := List.mem_map.1 hi
  obtain ⟨j, hj⟩ := hlists l hl
  subst heq
  have hat := ho.attributeListAt? hj p hp
  exact ⟨p.1, hat.next, hat.isHead⟩

theorem Sound.claims_declarations (ho : o.Sound) (s : Scopes) (listNames : Nat → Option (List String))
    (claimed : List Nat) :
    o.Claims claimed ((o.declarations s listNames (TokenSet.ofList o.document.size claimed)).map (·.opening)) := by
  refine ⟨List.pairwise_map.2 (pairwise_filterMap_ids fun i j hij d d' hd hd' => ?_), fun i hi => ?_, fun i hi => ?_⟩
  · rw [(ho.declarationAt_of_mem hd).1, (ho.declarationAt_of_mem hd').1]
    exact Nat.ne_of_lt hij
  · obtain ⟨d, hd, rfl⟩ := List.mem_map.1 hi
    obtain ⟨i, hi, hd⟩ := List.mem_filterMap.1 hd
    obtain ⟨hopen, -, hfree⟩ := ho.declarationAt_of_mem hd
    exact hopen ▸ not_mem_of_free (List.mem_range.1 hi) hfree
  · obtain ⟨d, hd, rfl⟩ := List.mem_map.1 hi
    obtain ⟨i, -, hd⟩ := List.mem_filterMap.1 hd
    obtain ⟨-, hat, -⟩ := ho.declarationAt_of_mem hd
    exact ⟨d.nameEnd, hat.next, hat.isHead⟩

theorem claims_keywordExpressions (hs : o.document.Spelled) (claimed : List Nat) :
    o.Claims claimed ((o.keywordExpressions (TokenSet.ofList o.document.size claimed)).map (·.2)) := by
  have hat : ∀ {i : Nat} {p : Nat × Nat},
      (if o.isAt (i + 1) "(" && !(TokenSet.ofList o.document.size claimed).has (i + 1) && o.takesOperand i then
        some (i, i + 1) else none) = some p → p.2 = i + 1 ∧ p.2 ∉ claimed ∧ o.IsHead i := by
    intro i p hp
    split at hp
    · rename_i hc
      rw [Bool.and_eq_true, Bool.and_eq_true] at hc
      obtain rfl := Option.some.inj hp
      exact ⟨rfl, not_mem_of_free (lt_eof_of_isAt hs (by decide) hc.1.1) hc.1.2, isHead_of_takesOperand hc.2⟩
    · cases hp
  refine ⟨List.pairwise_map.2 (pairwise_filterMap_ids fun i j hij p q hp hq => ?_), fun i hi => ?_, fun i hi => ?_⟩
  · rw [(hat hp).1, (hat hq).1]
    omega
  · obtain ⟨p, hp, rfl⟩ := List.mem_map.1 hi
    obtain ⟨i, -, hp⟩ := List.mem_filterMap.1 hp
    exact (hat hp).2.1
  · obtain ⟨p, hp, rfl⟩ := List.mem_map.1 hi
    obtain ⟨i, -, hp⟩ := List.mem_filterMap.1 hp
    exact ⟨i, (hat hp).1, (hat hp).2.2⟩

theorem Sound.claims_objectCreations (ho : o.Sound) (hs : o.document.Spelled) (claimed : List Nat) :
    o.Claims claimed ((o.objectCreations (TokenSet.ofList o.document.size claimed)).map (·.2)) := by
  have hat : ∀ {i : Nat} {p : Nat × Nat}, (if o.isKeyword i "new" && !o.isOneOf (i + 1) ["(", "[", "\x7b"] then
        (o.typeNameEnd? (i + 1)).bind fun last =>
          if o.isAt (last + 1) "(" && !(TokenSet.ofList o.document.size claimed).has (last + 1) then
            some (last, last + 1) else none
      else none) = some p →
      o.isKeyword i "new" = true ∧ ∃ last, o.typeNameEnd? (i + 1) = some last ∧ p.2 = last + 1 ∧ p.2 ∉ claimed := by
    intro i p hp
    split at hp
    · rename_i hnew
      rw [Bool.and_eq_true] at hnew
      obtain ⟨last, hlast, hp⟩ := Option.bind_eq_some_iff.1 hp
      split at hp
      · rename_i hc
        rw [Bool.and_eq_true] at hc
        obtain rfl := Option.some.inj hp
        exact ⟨hnew.1, last, hlast, rfl, not_mem_of_free (lt_eof_of_isAt hs (by decide) hc.1) hc.2⟩
      · cases hp
    · cases hp
  refine ⟨List.pairwise_map.2 (pairwise_filterMap_ids fun i j hij p q hp hq heq => ?_), fun i hi => ?_, fun i hi => ?_⟩
  · obtain ⟨-, last, hlast, hp, -⟩ := hat hp
    obtain ⟨hnew, last', hlast', hq, -⟩ := hat hq
    obtain rfl : last = last' := by omega
    -- The later `new` would stand in the type name after the earlier one.
    have hle := (ho.not_new_of_typeNameEnd? hlast').1
    have := (ho.not_new_of_typeNameEnd? hlast).2 j hij (by omega)
    exact absurd (hnew.symm.trans this) (by decide)
  · obtain ⟨p, hp, rfl⟩ := List.mem_map.1 hi
    obtain ⟨i, -, hp⟩ := List.mem_filterMap.1 hp
    obtain ⟨-, last, -, -, hfree⟩ := hat hp
    exact hfree
  · obtain ⟨p, hp, rfl⟩ := List.mem_map.1 hi
    obtain ⟨i, -, hp⟩ := List.mem_filterMap.1 hp
    obtain ⟨-, last, hlast, hnext, -⟩ := hat hp
    exact ⟨last, hnext, ho.isHead_of_typeNameEnd? hlast⟩

theorem mem_invocationAt {declared : TokenSet} {i : Nat} {n : SyntaxNode} (hn : n ∈ o.invocationAt declared i) :
    n = .invocation (i - 1) i ∨ ∃ first name, o.nameBefore? (i - 1) = some name ∧ 2 ≤ name ∧
      o.receiverStart? (name - 2) = some first ∧
      n = .memberInvocation ⟨first, name - 2⟩ name i ((o.closing? i).getD i) := by
  rw [invocationAt] at hn
  split at hn
  · cases hn
  · rename_i name hname
    split at hn
    · cases hn
    · refine (List.mem_cons.1 hn).imp_right fun hn => ?_
      rw [Option.mem_toList] at hn
      obtain ⟨first, hfirst, rfl⟩ := Option.map_eq_some_iff.1 hn
      split at hfirst
      · rename_i hc
        rw [Bool.and_eq_true, decide_eq_true_eq] at hc
        exact ⟨first, name, hname, hc.1, hfirst, rfl⟩
      · cases hfirst

/-- A call is about one gap, that of its parenthesis. -/
theorem gapRights_invocationAt (declared : TokenSet) (i : Nat) : gapRights (o.invocationAt declared i) = [] ∨
    (gapRights (o.invocationAt declared i) = [i] ∧ ∃ name, o.nameBefore? (i - 1) = some name) := by
  rw [invocationAt]
  split
  · exact .inl rfl
  · rename_i name hname
    split
    · exact .inl rfl
    · right
      refine ⟨?_, name, hname⟩
      generalize (if 2 ≤ name && o.isAt (name - 1) "." then o.receiverStart? (name - 2) else none) = receiver?
      cases receiver? <;> rfl

theorem Sound.claims_invocations (ho : o.Sound) (declared : TokenSet) (claimed : List Nat) :
    o.Claims claimed (gapRights (o.invocations declared (TokenSet.ofList o.document.size claimed))) := by
  let calls (i : Nat) : List SyntaxNode :=
    if 0 < i && o.isAt i "(" && !(TokenSet.ofList o.document.size claimed).has i then o.invocationAt declared i else []
  have hcalls : gapRights (o.invocations declared (TokenSet.ofList o.document.size claimed)) =
      o.ids.flatMap fun i => gapRights (calls i) := gapRights_flatMap calls o.ids
  have hat : ∀ i, gapRights (calls i) = [] ∨ (gapRights (calls i) = [i] ∧ 0 < i ∧
      (!(TokenSet.ofList o.document.size claimed).has i) = true ∧ o.IsHead (i - 1)) := by
    intro i
    by_cases hc : (0 < i && o.isAt i "(" && !(TokenSet.ofList o.document.size claimed).has i) = true
    · rw [show calls i = o.invocationAt declared i from if_pos hc]
      rw [Bool.and_eq_true, Bool.and_eq_true, decide_eq_true_eq] at hc
      refine (gapRights_invocationAt declared i).imp_right fun ⟨h, name, hname⟩ => ?_
      exact ⟨h, hc.1.1, hc.2, ho.isHead_of_nameBefore? hname⟩
    · rw [show calls i = [] from if_neg hc]
      exact .inl rfl
  have hmem : ∀ i r, r ∈ gapRights (calls i) →
      r = i ∧ 0 < i ∧ (!(TokenSet.ofList o.document.size claimed).has i) = true ∧ o.IsHead (i - 1) := by
    intro i r hr
    rcases hat i with h | ⟨h, hi⟩
    · rw [h] at hr
      cases hr
    · rw [h] at hr
      exact ⟨List.mem_singleton.1 hr, hi⟩
  rw [hcalls]
  refine ⟨List.nodup_flatMap.2 ⟨fun i _ => ?_, List.pairwise_lt_range.imp fun {i j} hij r hr hr' => ?_⟩, fun r hr => ?_,
    fun r hr => ?_⟩
  · rcases hat i with h | ⟨h, -⟩
    · rw [h]
      exact .nil
    · rw [h]
      exact List.nodup_singleton i
  · exact Nat.ne_of_lt hij ((hmem i r hr).1.symm.trans (hmem j r hr').1)
  · obtain ⟨i, hi, hr⟩ := List.mem_flatMap.1 hr
    obtain ⟨rfl, -, hfree, -⟩ := hmem i r hr
    exact not_mem_of_free (List.mem_range.1 hi) hfree
  · obtain ⟨i, hi, hr⟩ := List.mem_flatMap.1 hr
    obtain ⟨rfl, hpos, -, hhead⟩ := hmem i r hr
    exact ⟨r - 1, by omega, hhead⟩

theorem Sound.nodup_casts (ho : o.Sound) (claimed : TokenSet) : ((o.casts claimed).map (·.2)).Nodup := by
  have hat : ∀ {i : Nat} {p : Nat × Nat},
      (if o.isAt i "(" && !claimed.has i && o.canOpenCast i then o.castAt? i else none) = some p →
      ∃ close, o.closing? i = some close ∧ p.2 = close + 1 := by
    intro i p hp
    split at hp
    · rw [castAt?] at hp
      obtain ⟨close, hclose, hp⟩ := Option.bind_eq_some_iff.1 hp
      obtain ⟨last, -, hp⟩ := Option.bind_eq_some_iff.1 hp
      dsimp only at hp
      split at hp
      · obtain rfl := Option.some.inj hp
        exact ⟨close, hclose, rfl⟩
      · cases hp
    · cases hp
  refine List.pairwise_map.2 (pairwise_filterMap_ids fun i j hij p q hp hq heq => ?_)
  obtain ⟨close, hclose, hp⟩ := hat hp
  obtain ⟨close', hclose', hq⟩ := hat hq
  obtain rfl : close = close' := by omega
  exact Nat.ne_of_lt hij (ho.eq_of_closing? hclose hclose')

/-! ### Trees -/

theorem gapRights_attributeNodes (lists : List AttributeList) :
    gapRights (lists.flatMap AttributeList.nodes) = lists.flatMap fun l => l.arguments.map (·.2) := by
  rw [gapRights_flatMap]
  exact List.flatMap_congr fun l _ => gapRights_map (g := fun p : Nat × Nat => p.2) (fun _ => rfl) l.arguments

theorem gapRights_declarationNodes (declarations : List Declaration) :
    gapRights (declarations.flatMap Declaration.nodes) = declarations.map (·.opening) := by
  rw [gapRights_flatMap, ← List.flatMap_singleton' (declarations.map _), List.flatMap_map]
  refine List.flatMap_congr fun d _ => ?_
  rw [Declaration.nodes]
  cases d.method <;> rfl

/-- No list of attributes is found both in front of a declaration and in front of a parameter: those found first are
known by name. -/
theorem Sound.nodup_attributes (ho : o.Sound) (opens : TokenSet) {listNames : Array (Option (List String))}
    (hnames : listNames = o.declarationAttributes.foldl (fun table l => table.setIfInBounds l.closing (some l.names))
      (Array.replicate o.document.size none)) :
    ((o.declarationAttributes ++ o.parameterAttributes opens fun i => (listNames.getD i none).isSome).flatMap
      fun l => l.arguments.map (·.2)).Nodup := by
  have hknown : ∀ l ∈ o.declarationAttributes, (listNames.getD l.closing none).isSome = true := by
    intro l hl
    obtain ⟨i, -, hi⟩ := exists_of_mem_lists hl
    rw [hnames]
    refine isSome_foldl_names _ _ ?_ (.inl ⟨l, hl, rfl⟩)
    rw [Array.size_replicate]
    exact ho.closing_lt (opens_of_attributeListAt? hi).1
  have hlists : ∀ l ∈ o.declarationAttributes ++ o.parameterAttributes opens fun i => (listNames.getD i none).isSome,
      ∃ i, o.attributeListAt? i = some l := by
    intro l hl
    rcases List.mem_append.1 hl with hl | hl
    · exact (exists_of_mem_lists hl).imp fun _ h => h.2
    · exact (exists_of_mem_lists hl).imp fun _ h => h.2
  refine nodup_attributeOpens hlists
    (List.pairwise_append.2 ⟨ho.pairwise_closing, ho.pairwise_closing, fun l hl l' hl' heq => ?_⟩)
  obtain ⟨i, hc, hi⟩ := exists_of_mem_lists hl'
  rw [Bool.and_eq_true, Bool.and_eq_true, Bool.and_eq_true, (opens_of_attributeListAt? hi).1, ← heq] at hc
  have hunknown := hc.1.1.2
  rw [Option.any_some, hknown l hl] at hunknown
  cases hunknown

/-- **No two nodes of a tree are about one gap.** -/
theorem Sound.nodup_gapRights (ho : o.Sound) (hs : o.document.Spelled) {t : SyntaxTree} (h : o.tree? = some t) :
    (gapRights t.nodes).Nodup := by
  unfold tree? at h
  extract_lets size scopes attributeLists listNames attributeNodes attributeOpens declarations declarationOpens declared
    parameterLists parameterOpens claimed keywordOperands claimed₁ creations claimed₂ invocations claimed₃ casts
    roles at h
  obtain ⟨usings, husings, h⟩ := Option.bind_eq_some_iff.1 h
  obtain ⟨ifs, hifs, h⟩ := Option.bind_eq_some_iff.1 h
  obtain rfl := Option.some.inj h
  have hinvocation : claimed₃ = claimed₂ ++ gapRights invocations := by
    refine congrArg (claimed₂ ++ ·) (List.filterMap_congr fun n hn => ?_)
    obtain ⟨i, -, hn⟩ := List.mem_flatMap.1 hn
    split at hn
    · rcases mem_invocationAt hn with rfl | ⟨first, name, -, -, -, rfl⟩ <;> rfl
    · cases hn
  -- The list of all gaps, family by family.
  suffices hnodup : (claimed₃ ++ casts.map (·.2)).Nodup by
    refine (List.Perm.nodup_iff ?_).2 hnodup
    refine ((List.mergeSort_perm _ _).filterMap _).trans (.of_eq ?_)
    show gapRights _ = _
    simp only [gapRights_append]
    rw [hinvocation, gapRights_eq_nil (gap?_operatorNodes roles), gapRights_eq_nil (gap?_usingStatements? husings),
      gapRights_eq_nil (gap?_ifStatements? hifs), gapRights_attributeNodes, gapRights_attributeNodes,
      gapRights_declarationNodes, gapRights_map (g := fun p : Nat × Nat => p.2) (fun _ => rfl),
      gapRights_map (g := fun p : Nat × Nat => p.2) (fun _ => rfl),
      gapRights_map (g := fun p : Nat × Nat => p.2) (fun _ => rfl), List.append_nil, List.append_nil, List.append_nil]
  have hlists : ∀ l ∈ attributeLists, ∃ i, o.attributeListAt? i = some l := fun l hl =>
    (exists_of_mem_lists hl).imp fun _ h => h.2
  have hlists' : ∀ l ∈ parameterLists, ∃ i, o.attributeListAt? i = some l := fun l hl =>
    (exists_of_mem_lists hl).imp fun _ h => h.2
  have hattributes : (attributeOpens ++ parameterOpens).Nodup := by
    rw [← List.flatMap_append]
    exact ho.nodup_attributes (TokenSet.ofList size declarationOpens) rfl
  obtain ⟨-, -, hdisjoint⟩ := List.nodup_append'.1 hattributes
  have hattr : o.Claims [] attributeOpens :=
    ho.claims_attributes hlists ho.pairwise_closing fun _ _ => List.not_mem_nil
  have hdecl : o.Claims attributeOpens declarationOpens := ho.claims_declarations scopes _ attributeOpens
  have hparam : o.Claims (attributeOpens ++ declarationOpens) parameterOpens := by
    refine ho.claims_attributes hlists' ho.pairwise_closing fun i hi' hi => ?_
    rcases List.mem_append.1 hi with hi | hi
    · exact hdisjoint hi hi'
    · obtain ⟨d, hd, rfl⟩ := List.mem_map.1 hi
      obtain ⟨j, -, hd⟩ := List.mem_filterMap.1 hd
      obtain ⟨l, hl, hp⟩ := List.mem_flatMap.1 hi'
      obtain ⟨p, hp, heq⟩ := List.mem_map.1 hp
      obtain ⟨k, hk⟩ := hlists' l hl
      exact (heq ▸ ho.attributeListAt? hk p hp).not_declarationAt (ho.declarationAt_of_mem hd).2.1
  have hclaimed : o.Claims [] claimed := (hattr.append hdecl).append hparam
  have hclaimed₁ : o.Claims [] claimed₁ := hclaimed.append (claims_keywordExpressions hs claimed)
  have hclaimed₂ : o.Claims [] claimed₂ := hclaimed₁.append (ho.claims_objectCreations hs claimed₁)
  have hclaimed₃ : o.Claims [] claimed₃ :=
    hinvocation ▸ hclaimed₂.append (ho.claims_invocations declared claimed₂)
  refine hclaimed₃.nodup.append (ho.nodup_casts _) fun i hi hi' => ?_
  -- In front of what a cast applies to stands a parenthesis, and no word.
  obtain ⟨left, hleft, hhead⟩ := hclaimed₃.head i hi
  obtain ⟨p, hp, rfl⟩ := List.mem_map.1 hi'
  obtain ⟨hm, hparen⟩ := ho.casts hs hp
  have hnext := hm.next
  obtain rfl : left = p.1 := by omega
  exact absurd (hparen.symm.trans (hhead.not_paren hs)) (by decide)

end Outline

end LayoutLint
