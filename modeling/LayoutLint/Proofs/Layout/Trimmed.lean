import LayoutLint.Gap
import LayoutLint.Proofs.Layout.Blanks
import LayoutLint.Proofs.Layout.Weave
/-!
# Trimmed — trivia without white space at the ends of lines

Trivia of which all white space at the ends of lines is taken away is trimmed (`trimmed_dropAt`): no other white space
comes to stand at the end of a line by that, as none stands directly behind what is taken away. Trimmed trivia stays so
when breaks are joined, when it is cut behind a piece that is not white space, and when a line break is put behind it.
-/
namespace LayoutLint

/-- No piece is white space at the end of a line. `last` says that the text ends behind the trivia. -/
def Trimmed (last : Bool) : List Trivia → Prop
  | [] => True
  | t :: g => isRun last t g = false ∧ Trimmed last g

variable {last : Bool} {p : Nat → Bool} {a b g : List Trivia} {t : Trivia}

theorem trimmed_iff : Trimmed last g ↔ ∀ i t, g[i]? = some t → isRun last t (g.drop (i + 1)) = false := by
  induction g with
  | nil => exact ⟨fun _ i t ht => (nomatch ht), fun _ => trivial⟩
  | cons t g ih =>
    rw [Trimmed, ih]
    refine ⟨fun ⟨h0, h⟩ i u hu => ?_, fun h => ⟨h 0 t rfl, fun i u hu => h (i + 1) u hu⟩⟩
    cases i with
    | zero => exact Option.some.inj hu ▸ h0
    | succ i => exact h i u hu

theorem isRun_of_not_isWhitespace (h : t.isWhitespace = false) : isRun last t g = false := by
  rw [isRun, h, Bool.false_and]

theorem endsLine_append (last : Bool) (a b : List Trivia) : endsLine last (a ++ b) = endsLine (endsLine last b) a := by
  cases a <;> rfl

theorem trimmed_append : Trimmed last (a ++ b) ↔ Trimmed (endsLine last b) a ∧ Trimmed last b := by
  induction a with
  | nil => exact ⟨fun h => ⟨trivial, h⟩, fun h => h.2⟩
  | cons t a ih => rw [List.cons_append, Trimmed, ih, isRun, endsLine_append, ← isRun, Trimmed, and_assoc]

/-- What is trimmed at the end of the text is trimmed anywhere. -/
theorem Trimmed.weaken (h : Trimmed true g) : Trimmed last g := by
  induction g with
  | nil => trivial
  | cons t g ih =>
    obtain ⟨h0, h⟩ := h
    refine ⟨?_, ih h⟩
    cases g with
    | nil => exact isRun_of_not_isWhitespace (by rwa [isRun, endsLine, Bool.and_true] at h0)
    | cons u g => exact h0

/-- **What is behind trimmed trivia does not matter, when the trivia would be trimmed at the end of the text.** -/
theorem Trimmed.append (ha : Trimmed true a) (hb : Trimmed last b) : Trimmed last (a ++ b) :=
  trimmed_append.2 ⟨ha.weaken, hb⟩

theorem trimmed_endOfLine (last : Bool) (e : String) : Trimmed last [.endOfLine e] := ⟨rfl, trivial⟩

/-- What a contract puts in a gap is trimmed. -/
theorem trimmed_contract (k : GapContract) : Trimmed false k.trailing := by
  cases k
  · trivial
  · exact ⟨rfl, trivial⟩

/-- Nothing is to be taken out of trimmed trivia. -/
theorem Trimmed.dropAt_eq (h : Trimmed last g) (hp : PicksRuns last p g) : dropAt p g = g := by
  refine dropAt_eq_self fun i hi => Bool.eq_false_iff.2 fun hpi => ?_
  have ht := List.getElem?_eq_getElem hi
  have hrun := trimmed_iff.1 h i _ ht
  rw [hp i _ ht hpi] at hrun
  cases hrun

/-- **Trivia of which all white space at the ends of lines is taken away.** -/
theorem trimmed_dropAt (ha : Apart g) (hp : PicksRuns last p g)
    (hall : ∀ i t, g[i]? = some t → isRun last t (g.drop (i + 1)) = true → p i = true) : Trimmed last (dropAt p g) := by
  induction g generalizing p with
  | nil => trivial
  | cons t g ih =>
    have ih := ih ha.tail hp.tail fun i u hu => hall (i + 1) u hu
    rw [dropAt]
    split
    · exact ih
    · rename_i h0
      refine ⟨?_, ih⟩
      have hrun : isRun last t g = false := Bool.eq_false_iff.2 fun h => h0 (hall 0 t rfl h)
      cases ht : t.isWhitespace with
      | false => exact isRun_of_not_isWhitespace ht
      | true =>
        cases g with
        | nil => exact hrun
        | cons u g =>
          -- The piece behind white space is none, so it stays.
          have hu : u.isWhitespace = false := ha.1 ht
          have hkept : p 1 = false := Bool.eq_false_iff.2 fun h1 => by
            have := (Bool.and_eq_true_iff.1 (hp 1 u rfl h1)).1
            rw [hu] at this
            cases this
          rw [dropAt, if_neg (by rw [hkept]; exact Bool.false_ne_true)]
          exact hrun

theorem endsLine_joinGap (last : Bool) (g : List Trivia) : endsLine last (joinGap g) = endsLine last g := by
  cases g with
  | nil => rfl
  | cons t g =>
    rw [joinGap_cons]
    rcases glueGap_cases t (joinGap g) with h | ⟨r, -, ht, h⟩
    · rw [h]
      rfl
    · rw [h]
      exact ht.symm

/-- Joining breaks leaves nothing to be trimmed. -/
theorem Trimmed.joinGap (h : Trimmed last g) : Trimmed last (joinGap g) := by
  induction g with
  | nil => trivial
  | cons t g ih =>
    obtain ⟨h0, h⟩ := h
    rw [joinGap_cons]
    rcases glueGap_cases t (LayoutLint.joinGap g) with hg | ⟨r, hr, -, hg⟩
    · rw [hg]
      exact ⟨by rwa [isRun, endsLine_joinGap, ← isRun], ih h⟩
    · have hih := ih h
      rw [hr] at hih
      rw [hg]
      exact ⟨rfl, hih.2⟩

/-- What stands behind a piece that is not white space does not tell which white space in front of it stands at the end
of a line. -/
theorem isRun_append (last : Bool) (b : List Trivia) (ha : ∀ t ∈ a.getLast?, t.isWhitespace = false) {i : Nat}
    (ht : a[i]? = some t) : isRun last t ((a ++ b).drop (i + 1)) = isRun true t (a.drop (i + 1)) := by
  cases hw : t.isWhitespace with
  | false => rw [isRun_of_not_isWhitespace hw, isRun_of_not_isWhitespace hw]
  | true =>
    have hi : i + 1 < a.length := by
      have hlt := (List.getElem?_eq_some_iff.1 ht).1
      refine Nat.lt_of_le_of_ne hlt fun he => ?_
      have hlast := ha t (by rw [List.getLast?_eq_getElem?, ← he]; exact ht)
      rw [hw] at hlast
      cases hlast
    rw [List.drop_append_of_le_length (Nat.le_of_lt hi), List.drop_eq_getElem_cons hi]
    rfl

theorem PicksRuns.of_append (hp : PicksRuns last p (a ++ b)) (ha : ∀ t ∈ a.getLast?, t.isWhitespace = false) :
    PicksRuns true p a := fun i t ht hpi => by
  rw [← isRun_append last b ha ht]
  exact hp i t (by rw [List.getElem?_append_left (List.getElem?_eq_some_iff.1 ht).1, ht]) hpi

theorem Apart.of_append : ∀ {a : List Trivia}, Apart (a ++ b) → Apart a
  | [], _ => trivial
  | [_], _ => trivial
  | _ :: _ :: _, h => ⟨h.1, of_append h.2⟩

/-- **Trimming goes for the trivia that is kept**, when what is kept does not end in white space. -/
theorem trimmed_dropAt_of_append (hab : Apart (a ++ b)) (hp : PicksRuns last p (a ++ b))
    (ha : ∀ t ∈ a.getLast?, t.isWhitespace = false)
    (hall : ∀ i < a.length, ∀ t, (a ++ b)[i]? = some t → isRun last t ((a ++ b).drop (i + 1)) = true → p i = true) :
    Trimmed true (dropAt p a) :=
  trimmed_dropAt hab.of_append (hp.of_append ha) fun i t ht hrun => by
    have hi := (List.getElem?_eq_some_iff.1 ht).1
    exact hall i hi t (by rw [List.getElem?_append_left hi, ht]) (by rwa [isRun_append last b ha ht])

end LayoutLint
