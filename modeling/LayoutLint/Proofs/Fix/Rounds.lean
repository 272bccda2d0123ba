import LayoutLint.Fix
import LayoutLint.Proofs.Fallible
import LayoutLint.Proofs.Fix.Selection
import Mathlib.Data.List.Basic
/-!
# Rounds — what the end of mending tells of the rounds made

The texts that rounds make one after another follow from the first one alone (`FixSystem.after`): no limit and no record
of earlier texts has a part in them. Mending follows them up to some round, and what it says of its end is what is true
of these texts (`FixSystem.accounts_fix`). Nothing is asked of the rules; their edits may be any edits.
-/
namespace LayoutLint

namespace FixSystem

variable {s : FixSystem} {source t : String}

/-- The text that a round makes of a text; `none` when it cannot be read, when nothing is to be mended, and when the
edits cannot be made. -/
def next? (s : FixSystem) (t : String) : Option String :=
  match s.read t with
  | .error _ => none
  | .ok r =>
    if (s.edits r).isEmpty then none
    else
      match r.document.applyEdits (selectClear (s.edits r)).1 with
      | .error _ => none
      | .ok outcome => some outcome.document.text

/-- The text after a number of rounds, of which there may be any number. -/
def after (s : FixSystem) (source : String) : Nat → Option String
  | 0 => some source
  | k + 1 => (s.after source k).bind s.next?

/-- The first `n` texts are different. -/
def Different (s : FixSystem) (source : String) (n : Nat) : Prop :=
  ∀ i j, i < j → j < n → s.after source i ≠ s.after source j

/-- Why no round can be made from a text: it cannot be read, or it is to be mended and the work has been called off or
the edits cannot be made. -/
def FailsAt (s : FixSystem) (t : String) (e : Failure) : Prop :=
  s.read t = .error e ∨ ∃ r, s.read t = .ok r ∧ s.edits r ≠ [] ∧
    ((s.cancelled = true ∧ e = .cancelled) ∨ r.document.applyEdits (selectClear (s.edits r)).1 = .error e)

/-- What the end of mending says after `k` rounds, the limit being `limit`. -/
def Tells (s : FixSystem) (source : String) (limit k : Nat) (report : FixReport) : Prop :=
  match report.result with
  | .converged rounds => rounds = k ∧ ∀ v ∈ report.violations, s.editFor? report.document v = none
  | .limitReached remaining =>
    k = limit ∧ s.Different source (k + 1) ∧ 0 < remaining ∧
      remaining = (report.violations.filterMap (s.editFor? report.document)).length
  | .cycle n =>
    1 ≤ n ∧ n ≤ k ∧ s.after source k = s.after source (k - n) ∧ s.Different source k ∧
      ∀ i, ∃ t, s.after source (k + i) = some t ∧ s.after source (k - n + i % n) = some t

/-- **What a round does**: it reads the text and makes a selection of the edits, of which there are some. -/
theorem next?_eq_some_iff {t' : String} : s.next? t = some t' ↔ ∃ r outcome, s.read t = .ok r ∧ s.edits r ≠ [] ∧
    r.document.applyEdits (selectClear (s.edits r)).1 = .ok outcome ∧ outcome.document.text = t' := by
  constructor
  · intro h
    rw [next?] at h
    split at h
    · cases h
    · rename_i r hr
      split at h
      · cases h
      · rename_i hne
        split at h
        · cases h
        · rename_i outcome ho
          exact ⟨r, outcome, hr, fun hnil => hne (List.isEmpty_iff.2 hnil), ho, Option.some.inj h⟩
  · rintro ⟨r, outcome, hr, hne, ho, rfl⟩
    rw [next?, hr]
    dsimp only
    rw [if_neg (by rwa [List.isEmpty_iff]), ho]

/-- Rounds go on from the text that rounds have made. -/
theorem after_add (s : FixSystem) (source : String) (i : Nat) : ∀ j, s.after source (i + j) =
    (s.after source i).bind fun t => s.after t j
  | 0 => by simp [after]
  | j + 1 => by
    rw [← Nat.add_assoc, after, after_add s source i j, Option.bind_assoc]
    rfl

/-- **A text that comes back comes back for ever.** -/
theorem after_mod {k n : Nat} (hn : 0 < n) (h : s.after source (k + n) = s.after source k) (i : Nat) :
    s.after source (k + i) = s.after source (k + i % n) := by
  induction i using Nat.strongRecOn with
  | _ i ih =>
    rcases Nat.lt_or_ge i n with hlt | hge
    · rw [Nat.mod_eq_of_lt hlt]
    · obtain ⟨j, rfl⟩ : ∃ j, i = n + j := ⟨i - n, by omega⟩
      rw [Nat.add_mod_left, ← ih j (by omega), ← Nat.add_assoc, after_add, h, ← after_add]

/-- The texts of the first rounds, the latest first. -/
structure Trail (s : FixSystem) (source : String) (k : Nat) (history : List String) : Prop where
  length : history.length = k + 1
  text : ∀ i ≤ k, history[i]? = s.after source (k - i)
  nodup : history.Nodup

namespace Trail

variable {k : Nat} {history : List String}

theorem start (s : FixSystem) (source : String) : s.Trail source 0 [source] where
  length := rfl
  text i hi := by rw [Nat.le_zero.1 hi]; rfl
  nodup := by simp

/-- A round that makes a new text. -/
theorem cons (h : s.Trail source k history) (ht : s.after source (k + 1) = some t) (hnew : t ∉ history) :
    s.Trail source (k + 1) (t :: history) where
  length := by rw [List.length_cons, h.length]
  text i hi := by
    cases i with
    | zero => rw [Nat.sub_zero, ht, List.getElem?_cons_zero]
    | succ i => rw [List.getElem?_cons_succ, h.text i (by omega), Nat.add_sub_add_right]
  nodup := List.nodup_cons.2 ⟨hnew, h.nodup⟩

theorem text_eq (h : s.Trail source k history) {i : Nat} (hi : i ≤ k) : history[k - i]? = s.after source i := by
  rw [h.text _ (Nat.sub_le k i), Nat.sub_sub_self hi]

theorem different (h : s.Trail source k history) : s.Different source (k + 1) := by
  intro i j hij hj heq
  rw [← h.text_eq (i := i) (by omega), ← h.text_eq (i := j) (by omega)] at heq
  have hlen := h.length
  have := (List.getElem?_inj (by omega) h.nodup).1 heq
  omega

/-- A round that brings back a text: all that follows is told. -/
theorem cycle (h : s.Trail source k history) (ht : s.after source (k + 1) = some t) {i : Nat}
    (hi : history.idxOf? t = some i) :
    i ≤ k ∧ s.after source (k + 1) = s.after source (k + 1 - (i + 1)) ∧
      ∀ j, ∃ u, s.after source (k + 1 + j) = some u ∧ s.after source (k + 1 - (i + 1) + j % (i + 1)) = some u := by
  rw [List.idxOf?, List.findIdx?_eq_some_iff_getElem] at hi
  obtain ⟨hlt, hbeq, -⟩ := hi
  have hik : i ≤ k := by have := h.length; omega
  have hsub : k + 1 - (i + 1) = k - i := by omega
  have hback : s.after source (k - i + (i + 1)) = s.after source (k - i) := by
    rw [show k - i + (i + 1) = k + 1 by omega, ht, ← h.text i hik, List.getElem?_eq_getElem hlt, beq_iff_eq.1 hbeq]
  have hround : ∀ j, s.after source (k + 1 + j) = s.after source (k - i + j % (i + 1)) := by
    intro j
    rw [← after_mod (Nat.succ_pos i) hback j, show k + 1 + j = k - i + (i + 1) + j by omega, after_add, hback,
      ← after_add]
  rw [hsub]
  refine ⟨hik, by simpa using hround 0, fun j => ?_⟩
  have hmod : j % (i + 1) < i + 1 := Nat.mod_lt j (Nat.succ_pos i)
  have hle : k - i + j % (i + 1) ≤ k := by omega
  have hlen := h.length
  refine ⟨history[k - (k - i + j % (i + 1))], ?_, ?_⟩
  · rw [hround, ← h.text_eq hle, List.getElem?_eq_getElem]
  · rw [← h.text_eq hle, List.getElem?_eq_getElem]

end Trail

theorem fixRounds_of_nil {left k applied : Nat} {history : List String} {r : Reading} (h : s.edits r = []) :
    s.fixRounds left k applied history r =
      .ok { result := .converged k, document := r.document, fixesApplied := applied, violations := r.violations } := by
  cases left <;> rw [fixRounds, h] <;> rfl

/-- A round that has something to mend. -/
theorem fixRounds_succ {left k applied : Nat} {history : List String} {r : Reading} (h : s.edits r ≠ []) :
    s.fixRounds (left + 1) k applied history r =
      if s.cancelled then .error .cancelled
      else
        match r.document.applyEdits (selectClear (s.edits r)).1 with
        | .error e => .error e
        | .ok outcome =>
          match s.read outcome.document.text with
          | .error e => .error e
          | .ok next =>
            match history.idxOf? outcome.document.text with
            | some i =>
              .ok { result := .cycle (i + 1), document := next.document,
                    fixesApplied := applied + outcome.applied.length, violations := next.violations }
            | none =>
              s.fixRounds left (k + 1) (applied + outcome.applied.length) (outcome.document.text :: history) next := by
  rw [fixRounds, if_neg (by rwa [List.isEmpty_iff])]
  congr 1
  cases r.document.applyEdits (selectClear (s.edits r)).1 with
  | error e => rfl
  | ok outcome =>
    cases hq : s.read outcome.document.text with
    | error e => simp only [bind, Except.bind, hq]
    | ok next =>
      simp only [bind, Except.bind, hq]
      rfl

/-- An outcome of mending that is what rounds made, no more of them than the limit. -/
def Accounts (s : FixSystem) (source : String) (limit : Nat) : Except Failure FixReport → Prop
  | .ok report => ∃ k ≤ limit, ∃ t r, s.after source k = some t ∧ s.read t = .ok r ∧
      report.document = r.document ∧ report.violations = r.violations ∧ s.Tells source limit k report
  | .error e => ∃ k ≤ limit, ∃ t, s.after source k = some t ∧ s.FailsAt t e

/-- What rounds tell that go on from the text after `k` rounds. -/
theorem accounts_fixRounds (s : FixSystem) {source t : String} {k : Nat} {history : List String} {r : Reading}
    (htrail : s.Trail source k history) (ht : s.after source k = some t) (hr : s.read t = .ok r) (left applied : Nat) :
    s.Accounts source (k + left) (s.fixRounds left k applied history r) := by
  induction left generalizing k applied history r t with
  | zero =>
    by_cases hne : s.edits r = []
    · rw [fixRounds_of_nil hne]
      exact ⟨k, Nat.le_refl k, t, r, ht, hr, rfl, rfl, rfl, List.filterMap_eq_nil_iff.1 hne⟩
    · rw [fixRounds, if_neg (by rwa [List.isEmpty_iff])]
      exact ⟨k, Nat.le_refl k, t, r, ht, hr, rfl, rfl, rfl, htrail.different, List.length_pos_iff.2 hne, rfl⟩
  | succ left ih =>
    by_cases hne : s.edits r = []
    · rw [fixRounds_of_nil hne]
      exact ⟨k, Nat.le_add_right k _, t, r, ht, hr, rfl, rfl, rfl, List.filterMap_eq_nil_iff.1 hne⟩
    rw [fixRounds_succ hne]
    split
    · exact ⟨k, Nat.le_add_right k _, t, ht, .inr ⟨r, hr, hne, .inl ⟨‹_›, rfl⟩⟩⟩
    cases ho : r.document.applyEdits (selectClear (s.edits r)).1 with
    | error e => exact ⟨k, Nat.le_add_right k _, t, ht, .inr ⟨r, hr, hne, .inr ho⟩⟩
    | ok outcome =>
      have hnext : s.after source (k + 1) = some outcome.document.text := by
        rw [after, ht]
        exact next?_eq_some_iff.2 ⟨r, outcome, hr, hne, ho, rfl⟩
      dsimp only
      cases hq : s.read outcome.document.text with
      | error e => exact ⟨k + 1, by omega, _, hnext, .inl hq⟩
      | ok q =>
        dsimp only
        cases hi : history.idxOf? outcome.document.text with
        | some i =>
          obtain ⟨hik, hback, hever⟩ := htrail.cycle hnext hi
          exact ⟨k + 1, by omega, _, q, hnext, hq, rfl, rfl, Nat.succ_pos i, by omega, hback, htrail.different, hever⟩
        | none =>
          rw [show k + (left + 1) = k + 1 + left by omega]
          exact ih (htrail.cons hnext (List.idxOf?_eq_none_iff.1 hi)) hnext hq _

/-- **Mending is what rounds made**, whether it succeeds or fails. -/
theorem accounts_fix (s : FixSystem) (limit : Nat) (source : String) :
    s.Accounts source limit (s.fix limit source) := by
  rw [fix]
  cases hr : s.read source with
  | error e => exact ⟨0, Nat.zero_le _, source, rfl, .inl hr⟩
  | ok r =>
    have h := s.accounts_fixRounds (.start s source) rfl hr limit 0
    rwa [Nat.zero_add] at h

end FixSystem

namespace Registry

/-- **What it takes to read a text.** -/
theorem read_eq_ok_iff {R : Registry} {options : AnalyzerOptions} {cancelled : Bool} {source : String} {r : Reading} :
    R.read options cancelled source = .ok r ↔ ∃ p, Program.parse source = .ok p ∧ r.document = p.document ∧
      R.analyze { document := p.document, tree := p.tree, options, cancelled } = .ok r.violations := by
  rw [read]
  cases hp : Program.parse source with
  | error e =>
    refine ⟨fun h => (by cases h), ?_⟩
    rintro ⟨p, h, -⟩
    cases h
  | ok p =>
    refine bind_eq_ok_iff.trans ⟨?_, ?_⟩
    · rintro ⟨vs, ha, h⟩
      obtain rfl := Except.ok.inj h
      exact ⟨p, rfl, rfl, ha⟩
    · rintro ⟨p', h, hdoc, ha⟩
      obtain rfl := Except.ok.inj h
      refine ⟨r.violations, ha, ?_⟩
      rw [← hdoc]
      rfl

/-- **The rounds are reported as they were made**, whatever the rules and their edits are. -/
theorem fix_report (R : Registry) (options : AnalyzerOptions) (cancelled : Bool) (limit : Nat) (source : String) :
    match (R.fixSystem options cancelled).fix limit source with
    | .ok report => ∃ k ≤ limit, ∃ t p, (R.fixSystem options cancelled).after source k = some t ∧
        Program.parse t = .ok p ∧ report.document = p.document ∧
        R.analyze { document := p.document, tree := p.tree, options, cancelled } = .ok report.violations ∧
        (R.fixSystem options cancelled).Tells source limit k report
    | .error e => ∃ k ≤ limit, ∃ t, (R.fixSystem options cancelled).after source k = some t ∧
        (R.fixSystem options cancelled).FailsAt t e := by
  have h := (R.fixSystem options cancelled).accounts_fix limit source
  cases hfix : (R.fixSystem options cancelled).fix limit source with
  | error e =>
    rw [hfix] at h
    exact h
  | ok report =>
    rw [hfix] at h
    obtain ⟨k, hk, t, r, ht, hr, hdoc, hvs, htells⟩ := h
    obtain ⟨p, hp, hdoc', ha⟩ := read_eq_ok_iff.1 hr
    exact ⟨k, hk, t, p, ht, hp, hdoc.trans hdoc', hvs ▸ ha, htells⟩

end Registry

end LayoutLint
