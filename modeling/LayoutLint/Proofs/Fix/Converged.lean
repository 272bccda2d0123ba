import LayoutLint.Proofs.Fix.Cleared
/-!
# Converged — mending comes to an end, and does nothing more

The end of a text is mended in the first round, or white space at the ends of lines stands there and it is mended in the
second one. So after two rounds nothing is left to mend (`edits_eq_nil_after`): mending converges, and mending the
outcome changes nothing. This needs that no trivia stands behind a last word that ends in a line break itself: what is
cut off at the end of such a text is put back again.
-/
namespace LayoutLint

namespace Registry

variable {R : Registry} {c : RuleContext} {S : List Edit} {q : Document}

/-- The end of the text is mended, unless white space at the ends of lines is taken away there. -/
theorem Maximal.endsMended_or (h : R.Maximal c S) (hd : c.document.Parsed)
    (ht : SyntaxTree.ofDocument? c.document = some c.tree) (hr : R.Has .finalNewline)
    (hb : c.document.finalBreak? ≠ none) :
    R.EndsMended c S ∨ (R.Has .noTrailingWhitespace ∧ ∃ i t, c.document.IsRun c.document.endOfFile i t) := by
  obtain ⟨b, hb⟩ := Option.ne_none_iff_exists'.1 hb
  obtain ⟨keep, added, hcut⟩ := hd.exists_endCut hb
  have hwithin := hcut.within hd.proper Rule.finalNewline.id
  rcases h.waits _ (.final hr hb hcut) with hmem | ⟨f, hf, hconf⟩
  · exact .inl ⟨b, keep, added, hr, hb, hcut, hmem⟩
  rw [Edit.conflictsWith_comm] at hconf
  cases h.batch.mends f hf with
  | @gap k id j hw =>
    have hs := c.document.size_eq
    have hlt := hw.lt hd ht
    rw [hwithin.conflictsWith (c.document.within_gapEdit k id (by omega)) hd.proper (by omega)] at hconf
    cases hconf
  | @run j i t htrailing hrun =>
    by_cases hj : c.document.endOfFile = j
    · exact .inr ⟨htrailing, i, t, hj ▸ hrun⟩
    · rw [hwithin.conflictsWith (c.document.within_runEdit hrun.gap hrun.piece) hd.proper hj] at hconf
      cases hconf
  | final hr' hb' hcut' => exact .inl ⟨_, _, _, hr', hb', hcut', hf⟩

/-- A sound end that is not mended stays sound. -/
theorem Turn.soundEnd (h : R.Turn c S q) (hend : ¬ R.EndsMended c S) (hsound : c.document.SoundEnd) : q.SoundEnd := by
  obtain ⟨hsame, htail⟩ := h.tail_of_not_endsMended hend
  rcases hsound with hnil | hword
  · rw [hnil] at htail
    exact .inl htail
  · refine .inr fun m hm => ?_
    have hm : c.document.endOfFile = m + 1 := hsame.1.symm.trans hm
    rw [hsame.wordAt hm]
    exact hword m hm

/-- The end of a text with which nothing is wrong, or of which only the end is wrong. -/
def NearlyEnded (d : Document) : Prop := d.finalBreak? = none ∨ (d.SoundEnd ∧ d.TrimmedAt d.endOfFile)

/-- **The end after a round.** -/
theorem Turn.nearlyEnded (h : R.Turn c S q) (hS : R.Maximal c S) (hd : c.document.Parsed)
    (ht : SyntaxTree.ofDocument? c.document = some c.tree) (hr : R.Has .finalNewline)
    (hsound : c.document.SoundEnd) : NearlyEnded q := by
  by_cases hnone : c.document.finalBreak? = none
  · exact .inl (h.finalBreak?_of_none hS.batch hd ht hnone)
  by_cases hend : R.EndsMended c S
  · exact .inl ((h.finalBreak?_of_endsMended hS.batch hd ht hend).resolve_right fun hnot => hnot.1 hsound)
  · obtain ⟨htrailing, -⟩ := (hS.endsMended_or hd ht hr hnone).resolve_left hend
    exact .inr ⟨h.soundEnd hend hsound,
      Document.trimmedAt_endOfFile.2 (h.trimmed_tail_of_not_endsMended hS hd ht htrailing hend)⟩

/-- **The end after another round.** -/
theorem Turn.finalBreak?_eq_none (h : R.Turn c S q) (hS : R.Maximal c S) (hd : c.document.Parsed)
    (ht : SyntaxTree.ofDocument? c.document = some c.tree) (hr : R.Has .finalNewline)
    (hprev : NearlyEnded c.document) : q.finalBreak? = none := by
  by_cases hnone : c.document.finalBreak? = none
  · exact h.finalBreak?_of_none hS.batch hd ht hnone
  obtain ⟨hsound, htrimmed⟩ := hprev.resolve_left hnone
  rcases hS.endsMended_or hd ht hr hnone with hend | ⟨-, i, t, hrun⟩
  · exact (h.finalBreak?_of_endsMended hS.batch hd ht hend).resolve_right fun hnot => hnot.1 hsound
  · exact absurd hrun ((Document.trimmedAt_iff hrun.gap).1 htrimmed i t)

variable {options : AnalyzerOptions} {s t t' : String} {p : Program}

/-- **Two rounds mend the end of a text**, and no later round undoes it. -/
theorem ended_after (hR : R.Builtin) (hr : R.Has .finalNewline) (hp : Program.parse s = .ok p)
    (hsound : p.document.SoundEnd) {k : Nat} (h : (R.fixSystem options false).after s k = some t) :
    ∃ q, Program.parse t = .ok ⟨q, p.tree⟩ ∧ (k = 0 → q.SoundEnd) ∧ (1 ≤ k → NearlyEnded q) ∧
      (2 ≤ k → q.finalBreak? = none) := by
  induction k generalizing t with
  | zero => exact ⟨p.document, Option.some.inj h ▸ hp, fun _ => hsound, (nomatch ·), (nomatch ·)⟩
  | succ k ih =>
    obtain ⟨u, hu, hnext⟩ := Option.bind_eq_some_iff.1 h
    obtain ⟨d, hd, hfirst, hhalf, -⟩ := ih hu
    obtain ⟨-, hsource, htree⟩ := Program.parse_eq_ok_iff.1 hd
    obtain ⟨hdp, -⟩ := Document.parsed_of_ofSource hsource
    obtain ⟨S, q, hq, hmax, hturn⟩ := exists_maximal_of_next? hR hd hnext
    refine ⟨q, hq, (nomatch ·), fun _ => ?_, fun hk => ?_⟩
    · cases k with
      | zero => exact hturn.nearlyEnded hmax hdp htree hr (hfirst rfl)
      | succ k => exact .inl (hturn.finalBreak?_eq_none hmax hdp htree hr (hhalf (Nat.succ_pos k)))
    · exact hturn.finalBreak?_eq_none hmax hdp htree hr (hhalf (by omega))

/-- Nothing is to be mended in a cleared text that ends as it should. -/
theorem Cleared.not_mends (h : R.Cleared c.tree c.document) (hend : c.document.finalBreak? = none) (e : Edit) :
    ¬ R.Mends c e := by
  intro he
  cases he with
  | gap hw hb => exact hb (h.wanted _ _ _ hw)
  | @run j i u hr hrun => exact (Document.trimmedAt_iff hrun.gap).1 (h.trimmed hr j hrun.gap) i u hrun
  | final _ hb =>
    rw [hend] at hb
    cases hb

/-- **After two rounds nothing is left to mend.** -/
theorem edits_eq_nil_after (hR : R.Builtin) (hr : R.Has .finalNewline) (hp : Program.parse s = .ok p)
    (hsound : p.document.SoundEnd) {k : Nat} (hk : 2 ≤ k) (h : (R.fixSystem options false).after s k = some t)
    {r : Reading} (hread : (R.fixSystem options false).read t = .ok r) : (R.fixSystem options false).edits r = [] := by
  obtain ⟨q, hq, -, hclear⟩ := cleared_after hR hp h
  obtain ⟨q', hq', -, -, hend⟩ := ended_after hR hr hp hsound h
  obtain rfl := (Program.mk.inj (Except.ok.inj (hq.symm.trans hq'))).1
  obtain ⟨-, -, hedits, hS⟩ := batch_of_read hR hq hread
  rw [hedits]
  by_contra hne
  obtain ⟨e, he⟩ := List.exists_mem_of_ne_nil _ (selectClear_ne_nil hne)
  exact Cleared.not_mends (c := { document := q, tree := p.tree, options }) (hclear hk) (hend hk) e (hS.mends e he)

/-- No round follows the second one. -/
theorem after_eq_none (hR : R.Builtin) (hr : R.Has .finalNewline) (hp : Program.parse s = .ok p)
    (hsound : p.document.SoundEnd) {k : Nat} (hk : 3 ≤ k) : (R.fixSystem options false).after s k = none := by
  obtain ⟨k, rfl⟩ := Nat.exists_eq_add_of_le' hk
  refine Option.eq_none_iff_forall_not_mem.2 fun t ht => ?_
  obtain ⟨u, hu, hnext⟩ := Option.bind_eq_some_iff.1 ht
  obtain ⟨r, o, hread, hne, -⟩ := FixSystem.next?_eq_some_iff.1 hnext
  exact hne (edits_eq_nil_after hR hr hp hsound (by omega) hu hread)

/-- Mending a text in which nothing is to be mended. -/
theorem fix_of_edits_eq_nil {limit : Nat} {r : Reading} (hread : (R.fixSystem options false).read t = .ok r)
    (h : (R.fixSystem options false).edits r = []) : (R.fixSystem options false).fix limit t =
      .ok { result := .converged 0, document := r.document, fixesApplied := 0, violations := r.violations } := by
  rw [FixSystem.fix, hread]
  exact FixSystem.fixRounds_of_nil h

/-- **Mending converges**: the rounds come to an end before the limit. -/
theorem converged_of_fix (hR : R.Builtin) (hr : R.Has .finalNewline) (hp : Program.parse s = .ok p)
    (hsound : p.document.SoundEnd) {limit : Nat} (hlimit : 2 ≤ limit) {report : FixReport}
    (h : (R.fixSystem options false).fix limit s = .ok report) : ∃ k t r, report.result = .converged k ∧
      (R.fixSystem options false).after s k = some t ∧ (R.fixSystem options false).read t = .ok r ∧
      report.document = r.document ∧ report.violations = r.violations ∧ (R.fixSystem options false).edits r = [] := by
  have hrounds := (R.fixSystem options false).accounts_fix limit s
  rw [h] at hrounds
  obtain ⟨k, hk, t, r, ht, hread, hdoc, hvs, htells⟩ := hrounds
  rw [FixSystem.Tells] at htells
  split at htells
  · obtain ⟨rfl, hnone⟩ := htells
    rw [hdoc, hvs] at hnone
    exact ⟨_, t, r, ‹_›, ht, hread, hdoc, hvs, List.filterMap_eq_nil_iff.2 hnone⟩
  · -- At the limit nothing is left to mend.
    obtain ⟨rfl, -, hpos, hremaining⟩ := htells
    have hnil := edits_eq_nil_after hR hr hp hsound hlimit ht hread
    rw [hdoc, hvs] at hremaining
    rw [show List.filterMap ((R.fixSystem options false).editFor? r.document) r.violations = [] from hnil] at hremaining
    exact absurd hremaining (Nat.ne_of_gt hpos)
  · -- A text that comes back would be followed by a third round.
    obtain ⟨-, -, -, -, hever⟩ := htells
    obtain ⟨u, hu, -⟩ := hever 3
    rw [after_eq_none hR hr hp hsound (Nat.le_add_left 3 k)] at hu
    cases hu

/-- A text that ends as it should has no violation at its end. -/
theorem ruleId_ne_finalNewline (hR : R.Builtin) (h : c.document.finalBreak? = none) {vs : List Violation}
    (hvs : R.analyze c = .ok vs) : ∀ w ∈ vs, w.ruleId ≠ Rule.finalNewline.id := by
  intro v hv hid
  obtain ⟨a, ha, w, hw, rfl⟩ := (mem_analyze hvs).1 hv
  have hrule : a.rule = .finalNewline :=
    eq_of_id_eq (hR a ha) (by simp [builtinRules]) ((hw.ruleId (hR a ha)).symm.trans hid)
  obtain ⟨n, -, hkind, -⟩ | ⟨-, ws, hws, hwn⟩ := hw
  · rw [hrule] at hkind
    cases hkind
  · obtain ⟨message, rfl⟩ := final_of_checkDocument hrule hws
    rw [h] at hwn
    cases hwn

/-- **Mending comes to an end, and does nothing more**: it converges, no violation at the end of the text is left, and
mending the outcome makes no edit. -/
theorem fix_converges (hR : R.Builtin) (hr : R.Has .finalNewline) (hp : Program.parse s = .ok p)
    (hsound : p.document.SoundEnd) (hfits : R.Fits options s) {limit : Nat} (hlimit : 2 ≤ limit) :
    ∃ report rounds again, (R.fixSystem options false).fix limit s = .ok report ∧ report.result = .converged rounds ∧
      (∀ w ∈ report.violations, w.ruleId ≠ Rule.finalNewline.id) ∧
      (R.fixSystem options false).fix limit report.document.text = .ok again ∧ again.fixesApplied = 0 ∧
      again.document.text = report.document.text := by
  obtain ⟨report, hfix⟩ := exists_fix hR hp hfits limit
  obtain ⟨k, t, r, hconverged, ht, hread, hdoc, hvs, hnil⟩ := converged_of_fix hR hr hp hsound hlimit hfix
  obtain ⟨q, hq, -⟩ := keeps_after hR hp ht
  obtain ⟨hqdoc, hanalyze, hedits, -⟩ := batch_of_read hR hq hread
  obtain ⟨-, hsource, htree⟩ := Program.parse_eq_ok_iff.1 hq
  obtain ⟨hqp, hqtext⟩ := Document.parsed_of_ofSource hsource
  have htext : report.document.text = t := by rw [hdoc, hqdoc, hqtext]
  let c : RuleContext := { document := q, tree := p.tree, options }
  have hnothing := not_mends_of_edits_eq_nil hR (c := c) hqp htree rfl hanalyze (hedits ▸ hnil)
  have hend : q.finalBreak? = none := by
    by_contra hb
    obtain ⟨b, hb⟩ := Option.ne_none_iff_exists'.1 hb
    obtain ⟨keep, added, hcut⟩ := hqp.exists_endCut hb
    exact hnothing _ (.final hr hb hcut)
  refine ⟨report, k, _, hfix, hconverged, ?_, htext ▸ fix_of_edits_eq_nil hread hnil, rfl, by rw [hdoc]⟩
  rw [hvs]
  exact ruleId_ne_finalNewline hR (c := c) hend hanalyze

theorem has_finalNewline_builtin : builtin.Has .finalNewline :=
  ⟨{ rule := .finalNewline }, by simp [builtin, ofRules, builtinRules], rfl⟩

/-- A text without a line break at its end gets one in the first round. -/
theorem fix_converges_missing : (∃ p, Program.parse "f(x);" = .ok p ∧ p.document.SoundEnd) ∧ builtin.Fits {} "f(x);" ∧
    ∃ report rounds again, (builtin.fixSystem {} false).fix defaultRounds "f(x);" = .ok report ∧
      report.result = .converged rounds ∧ (∀ w ∈ report.violations, w.ruleId ≠ Rule.finalNewline.id) ∧
      (builtin.fixSystem {} false).fix defaultRounds report.document.text = .ok again ∧ again.fixesApplied = 0 ∧
      again.document.text = report.document.text := by
  obtain ⟨p, hp, htail⟩ := exists_ok_of_any (e := Program.parse "f(x);") (p := fun p => decide (p.document.tail = []))
    (by decide +kernel)
  have hsound : p.document.SoundEnd := .inl (of_decide_eq_true htail)
  have hfits : builtin.Fits {} "f(x);" := fits_of_stops (n := 2) (by decide +kernel) (by decide +kernel)
  exact ⟨⟨p, hp, hsound⟩, hfits,
    fix_converges builtin_builtin has_finalNewline_builtin hp hsound hfits (by decide)⟩

-- A literal that takes in a line break, and another break behind it: what is cut off is put back.
example : ((builtin.fixSystem {} false).fix defaultRounds "\"\\\n\n").toOption.map (·.result) = some (.cycle 1) := by
  decide +kernel

end Registry

end LayoutLint
