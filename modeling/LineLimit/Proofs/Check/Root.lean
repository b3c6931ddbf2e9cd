import LineLimit.Proofs.Check.Tally
import LineLimit.Proofs.Search.Found
import LineLimit.Proofs.Tree.Presence
import LineLimit.Tree.Working

/-!
# A root that cannot be looked up

A search asks first whether its root is there, without following a link under
the last name of it, and finds nothing if not. Only a root that is there is
walked from, and then looked up with all its links. So it depends on where the
look-up fails whether the failure is told:

> `check_of_unresolved`: a failure under the last name of the root is an error
> item; any other failure is passed over in silence, whatever its reason.

A link on the way to the root that is part of a cycle, a name that is too long,
or a closed directory above the root is therefore taken for a root that is not
there.
-/

namespace LineLimit.TreeView

variable {v : TreeView} {p : Pattern}

theorem matchingFiles_of_lacksRoot (o : WalkOptions)
    (h : (v.lacksRoot p || p.readsStandardInput) = true) : v.matchingFiles p o = [] := by
  unfold matchingFiles
  rw [if_pos h]

/-- A root that is there and leads nowhere is the only item. -/
theorem matchingFiles_of_unresolved {e : SystemError} (o : WalkOptions)
    (hroot : v.lacksRoot p = false) (hstdin : p.readsStandardInput = false)
    (he : v.resolve p.root = .error e) :
    v.matchingFiles p o = [.error (.system p.root e)] := by
  rw [matchingFiles_of_root o hroot hstdin]
  unfold TreeView.walk
  rw [he]
  rfl

/-- A root that is not there leads nowhere for the reason for which it is not
there. -/
theorem present_of_lacksRoot {e : SystemError} (hroot : v.lacksRoot p = true)
    (he : v.resolve p.root = .error e) : v.present p.root = .error e := by
  unfold lacksRoot at hroot
  cases hpresent : v.present p.root with
  | ok u =>
    rw [hpresent] at hroot
    exact absurd hroot (by simp [Except.isOk, Except.toBool])
  | error e' =>
    have hsame := (resolve_of_present_error hpresent).symm.trans he
    exact congrArg Except.error (Except.error.inj hsame)

/-- A look-up of the root that fails is told in one case only: the root is there
and does not stand for the standard input. Then the failure is the only item; it
is passed over, or ends the check if that is strict. In all other cases, whatever
the reason of the failure, the search has no items and the check finds nothing
wrong, be it strict or not. -/
theorem check_of_unresolved (v : TreeView) {c : CheckConfig} {p : Pattern} {e : SystemError}
    (hp : Pattern.compile c.pattern c.walk.ignoreCase = .ok p)
    (he : v.resolve p.root = .error e) :
    (v.lacksRoot p = true → v.present p.root = .error e) ∧
    if v.lacksRoot p || p.readsStandardInput then
      v.matchingFiles p c.walk = [] ∧ (v.check c).outcome = .ok {}
    else
      v.matchingFiles p c.walk = [.error (.system p.root e)] ∧
        (v.check c).outcome =
          if c.strict then .error (.walk (.system p.root e))
          else .ok { errors := [.walk (.system p.root e)] } := by
  refine ⟨fun hroot => present_of_lacksRoot hroot he, ?_⟩
  rw [outcome_check hp]
  split
  · next hsilent =>
    rw [matchingFiles_of_lacksRoot c.walk hsilent]
    exact ⟨rfl, rfl⟩
  · next htold =>
    simp only [Bool.or_eq_true, not_or, Bool.not_eq_true] at htold
    rw [matchingFiles_of_unresolved c.walk htold.1 htold.2 he]
    refine ⟨rfl, ?_⟩
    by_cases hstrict : c.strict = true
    · rw [runItems_strict hstrict, if_pos hstrict]
      rfl
    · rw [runItems_lenient (Bool.eq_false_iff.mpr hstrict), if_neg hstrict]
      rfl

/-- Two links that lead to each other. -/
def cyclicTree : WorkingTree :=
  ((WorkingTree.ofTree .empty).put (utf8 "a".toList) (.link (utf8 "b".toList))).put
    (utf8 "b".toList) (.link (utf8 "a".toList))

/-- The pattern `a/*.rs`. -/
def belowLink : Pattern :=
  ⟨"a/*.rs".toList, false,
    [.literal 'a', .literal '/', .star, .literal '.', .literal 'r', .literal 's'], rfl⟩

/-- The pattern `a/x/*.rs`. -/
def farBelowLink : Pattern :=
  ⟨"a/x/*.rs".toList, false,
    [.literal 'a', .literal '/', .literal 'x', .literal '/', .star, .literal '.', .literal 'r',
      .literal 's'], rfl⟩

/-- The same cycle of links is told under the last name of the root, and not told
above it. -/
theorem check_of_unresolved_cycle :
    cyclicTree.view.resolve belowLink.root = .error .tooManyLinks ∧
      (cyclicTree.view.check ⟨"a/*.rs".toList, 80, {}, true⟩).outcome =
        .error (.walk (.system (utf8 "a".toList) .tooManyLinks)) ∧
      cyclicTree.view.resolve farBelowLink.root = .error .tooManyLinks ∧
      cyclicTree.view.present farBelowLink.root = .error .tooManyLinks ∧
      (cyclicTree.view.check ⟨"a/x/*.rs".toList, 80, {}, true⟩).outcome = .ok {} := by
  have hnear : cyclicTree.view.resolve belowLink.root = .error .tooManyLinks := by
    rfl
  have hfar : cyclicTree.view.resolve farBelowLink.root = .error .tooManyLinks :=
    resolve_of_present_error rfl
  have hnear' := check_of_unresolved cyclicTree.view
    (c := ⟨"a/*.rs".toList, 80, {}, true⟩) (p := belowLink) rfl hnear
  have hfar' := check_of_unresolved cyclicTree.view
    (c := ⟨"a/x/*.rs".toList, 80, {}, true⟩) (p := farBelowLink) rfl hfar
  rw [if_neg (by decide +kernel)] at hnear'
  rw [if_pos (by decide +kernel)] at hfar'
  exact ⟨hnear, hnear'.2.2, hfar, hfar'.1 (by decide +kernel), hfar'.2.2⟩

/-- A root that cannot be looked up need not be an error, also where the reason
is not that nothing is there. -/
theorem not_forall_error_of_present_error :
    ¬∀ (v : TreeView) (p : Pattern) (o : WalkOptions) (e : SystemError),
      v.present p.root = .error e → e ≠ .notFound → e ≠ .notDirectory →
        ∃ err, .error err ∈ v.matchingFiles p o := by
  intro h
  obtain ⟨err, herr⟩ := h cyclicTree.view farBelowLink {} .tooManyLinks rfl
    (by decide) (by decide)
  have hnone : cyclicTree.view.matchingFiles farBelowLink {} = [] := by decide +kernel
  rw [hnone] at herr
  exact absurd herr List.not_mem_nil

end LineLimit.TreeView
