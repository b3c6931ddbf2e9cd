import LineLimit.Proofs.Runs
import LineLimit.Tree.Basic

/-!
# Paths and the names they lead through

`Path.extend p names` is where going down `names` leads from `p`. It writes
`p`, the slash that a name after `p` needs, and the names with a slash between
each two:

> `extend_cons`: `p.extend (n :: ns) = p.stem ++ [slash].intercalate (n :: ns)`.

So the names can be read back from the path: they are its components after those
of `p` (`components_extend`). And a path below `.` is, without its `.`, the names
alone (`belowDot_extend`).
-/

namespace LineLimit

namespace Path

/-- The path that leads from `p` down these names. -/
def extend (p : Path) (names : List Bytes) : Path := names.foldl child p

/-- `p` with what has to stand between it and a name after it. -/
def stem (p : Path) : Path :=
  if p = [] ∨ p.getLast? = some slash then p else p ++ [slash]

/-- A stretch of a path that stands for an entry of a directory: one that moves
to another place, in one piece. -/
structure IsName (n : Bytes) : Prop where
  isStep : isStep n = true
  slash_not_mem : slash ∉ n

instance (n : Bytes) : Decidable (IsName n) :=
  decidable_of_iff (Path.isStep n = true ∧ slash ∉ n) ⟨fun h => ⟨h.1, h.2⟩, fun h => ⟨h.1, h.2⟩⟩

theorem IsName.ne_nil {n : Bytes} (h : IsName n) : n ≠ [] := by
  intro hn
  have hstep := h.isStep
  rw [hn] at hstep
  exact absurd hstep (by decide)

/-- A stretch of a path that can stand between two slashes; `.` is one, though no name. -/
structure IsPart (n : Bytes) : Prop where
  ne_nil : n ≠ []
  slash_not_mem : slash ∉ n

instance (n : Bytes) : Decidable (IsPart n) :=
  decidable_of_iff (n ≠ [] ∧ slash ∉ n) ⟨fun h => ⟨h.1, h.2⟩, fun h => ⟨h.1, h.2⟩⟩

theorem isPart_of_mem {names : List Bytes} (h : ∀ n ∈ names, IsName n) :
    ∀ n ∈ names, IsPart n :=
  fun n hn => ⟨(h n hn).ne_nil, (h n hn).slash_not_mem⟩

theorem child_eq (p : Path) (name : Bytes) : p.child name = p.stem ++ name := by
  unfold child stem
  cases hlast : p.getLast? with
  | none =>
    have hp : p = [] := List.getLast?_eq_none_iff.mp hlast
    rw [if_pos (Or.inl hp), hp]
    rfl
  | some b =>
    have hne : p ≠ [] := by
      intro hp
      rw [hp] at hlast
      exact absurd hlast (by simp)
    by_cases hb : b = slash
    · simp [hb]
    · simp [hb, hne]

/-- A path that ends in a name does not end in a slash. -/
theorem getLast?_append {p : Path} {n : Bytes} (hnil : n ≠ []) (hslash : slash ∉ n) :
    (p ++ n).getLast? ≠ some slash := by
  intro hs
  have hb : n.getLast? = some (n.getLast hnil) := List.getLast?_eq_some_getLast hnil
  rw [List.getLast?_append, hb, Option.some_or, Option.some.injEq] at hs
  exact hslash (hs ▸ List.getLast_mem hnil)

/-- A path that ends in a name needs a slash before another one. -/
theorem stem_append {p : Path} {n : Bytes} (hnil : n ≠ []) (hslash : slash ∉ n) :
    (p ++ n).stem = p ++ n ++ [slash] := by
  have hne : p ++ n ≠ [] := fun hp => hnil (List.append_eq_nil_iff.mp hp).2
  have hlast := getLast?_append (p := p) hnil hslash
  unfold stem
  rw [if_neg (by simp only [hne, hlast, or_self, not_false_eq_true])]

theorem getLast?_extend (p : Path) {names : List Bytes} (hne : names ≠ [])
    (h : ∀ n ∈ names, IsPart n) : (p.extend names).getLast? ≠ some slash := by
  obtain ⟨init, last, rfl⟩ := (List.eq_nil_or_concat' names).resolve_left hne
  have hlast : IsPart last := h last (List.mem_append_right _ (List.mem_singleton_self _))
  unfold extend
  rw [List.foldl_append, List.foldl_cons, List.foldl_nil, child_eq]
  exact getLast?_append hlast.ne_nil hlast.slash_not_mem

theorem extend_cons {n : Bytes} {ns : List Bytes} (p : Path) (h : ∀ m ∈ n :: ns, IsPart m) :
    p.extend (n :: ns) = p.stem ++ [slash].intercalate (n :: ns) := by
  induction ns generalizing n p with
  | nil =>
    show p.child n = _
    rw [child_eq, List.intercalate_singleton]
  | cons m ns ih =>
    have hn : IsPart n := h n (List.mem_cons_self ..)
    show (p.child n).extend (m :: ns) = _
    rw [ih (p.child n) (fun k hk => h k (List.mem_cons_of_mem _ hk)), child_eq,
      stem_append hn.ne_nil hn.slash_not_mem, List.intercalate_cons_cons]
    simp only [List.append_assoc]

/-- Names set out with a slash between each two are read back. -/
theorem pieces_intercalate {names : List Bytes} (hne : names ≠ [])
    (h : ∀ n ∈ names, slash ∉ n) : pieces ([slash].intercalate names) = names :=
  List.splitOn_intercalate slash h hne

/-- A path needs a slash before another name, if its last name is one. -/
theorem stem_intercalate (names : List Bytes) {last : Bytes} (hnil : last ≠ [])
    (hslash : slash ∉ last) :
    stem ([slash].intercalate (names ++ [last])) =
      [slash].intercalate (names ++ [last]) ++ [slash] := by
  by_cases hnames : names = []
  · rw [hnames, List.nil_append, List.intercalate_singleton]
    exact stem_append (p := []) hnil hslash
  · rw [intercalate_append hnames (List.cons_ne_nil _ _), List.intercalate_singleton,
      List.append_cons]
    exact stem_append hnil hslash

/-- Going down names makes a path longer. -/
theorem length_lt_extend (p : Path) {names : List Bytes} (hne : names ≠ [])
    (h : ∀ n ∈ names, IsPart n) : p.length < (p.extend names).length := by
  obtain ⟨n, ns, rfl⟩ := List.exists_cons_of_ne_nil hne
  have hpos : 0 < n.length := List.length_pos_iff.mpr (h n (List.mem_cons_self ..)).ne_nil
  have hstem : p.length ≤ p.stem.length := by unfold stem; split <;> simp
  rw [extend_cons p h]
  cases ns with
  | nil => simp only [List.intercalate_singleton, List.length_append]; omega
  | cons m ns => simp only [List.intercalate_cons_cons, List.length_append]; omega

/-- A path grows at its end only. -/
theorem prefix_extend (p : Path) (names : List Bytes) : p <+: p.extend names := by
  induction names generalizing p with
  | nil => exact List.prefix_refl p
  | cons n ns ih =>
    have hchild : p <+: p.child n := by
      rw [child_eq]
      unfold stem
      split
      · exact List.prefix_append p n
      · rw [List.append_assoc]
        exact List.prefix_append p _
    exact hchild.trans (ih (p.child n))

/-- What a path starts with stays in front of a name after it. -/
theorem child_append (a : Path) {b : Path} (hb : b ≠ []) (name : Bytes) :
    child (a ++ b) name = a ++ child b name := by
  have hlast : (a ++ b).getLast? = b.getLast? := by
    rw [List.getLast?_append, List.getLast?_eq_some_getLast hb, Option.some_or]
  unfold child
  rw [hlast, List.getLast?_eq_some_getLast hb]
  dsimp only
  split
  · exact List.append_assoc a b name
  · exact List.append_assoc a b _

/-- What a path starts with stays in front when it is extended. -/
theorem extend_append (a : Path) {b : Path} (hb : b ≠ []) (names : List Bytes) :
    extend (a ++ b) names = a ++ b.extend names := by
  induction names generalizing b with
  | nil => rfl
  | cons n names ih =>
    have hne : child b n ≠ [] := by
      obtain ⟨rest, hrest⟩ := prefix_extend b [n]
      exact fun hnil => hb (List.append_eq_nil_iff.mp (hrest.trans hnil)).1
    show extend (child (a ++ b) n) names = a ++ extend (child b n) names
    rw [child_append a hb, ih hne]

/-! ## Components -/

theorem filter_isStep {names : List Bytes} (h : ∀ n ∈ names, IsName n) :
    names.filter isStep = names :=
  List.filter_eq_self.mpr fun n hn => (h n hn).isStep

/-- The first component of a path is its first piece, or the root, and the
others are its other steps. -/
theorem components_of_pieces {p : Path} {first : Bytes} {rest : List Bytes} (hp : p ≠ [])
    (h : p.pieces = first :: rest) :
    p.components = (if first = [] then [slash] else first) :: rest.filter isStep := by
  cases first with
  | nil =>
    -- only the empty path is one empty piece
    have hrest : rest ≠ [] := by
      intro hnil
      have hjoin : [slash].intercalate p.pieces = p := List.intercalate_splitOn slash
      rw [h, hnil] at hjoin
      exact hp hjoin.symm
    obtain ⟨second, rest, rfl⟩ := List.exists_cons_of_ne_nil hrest
    unfold components
    rw [h]
    rfl
  | cons b first =>
    unfold components
    rw [h]
    rfl

/-- The components of a path stay in front of what is written after a slash. -/
theorem components_prefix_append {p : Path} (hp : p ≠ []) (s : Bytes) :
    p.components <+: (p ++ slash :: s).components := by
  obtain ⟨first, rest, hfirst⟩ := List.exists_cons_of_ne_nil (List.splitOn_ne_nil slash p)
  have hpieces : pieces (p ++ slash :: s) = first :: (rest ++ pieces s) := by
    rw [← List.cons_append, ← hfirst]
    exact List.splitOn_append_cons_self p s
  rw [components_of_pieces hp hfirst, components_of_pieces (by simp) hpieces, List.filter_append,
    ← List.cons_append]
  exact List.prefix_append _ _

/-- What is written after a path comes after the pieces that its components are
made of. -/
theorem exists_pieces_stem {p : Path} (hp : p ≠ []) :
    ∃ first rest, p.components = (if first = [] then [slash] else first) :: rest.filter isStep ∧
      ∀ s, pieces (p.stem ++ s) = first :: (rest ++ pieces s) := by
  -- `p` is what is before the slash of its stem, or has the slash as well
  obtain ⟨q, hstem, hq⟩ : ∃ q, p.stem = q ++ [slash] ∧ (p = q ∨ p = q ++ [slash]) := by
    by_cases hlast : p.getLast? = some slash
    · obtain ⟨q, hq⟩ := List.getLast?_eq_some_iff.mp hlast
      exact ⟨q, (if_pos (Or.inr hlast)).trans hq, Or.inr hq⟩
    · refine ⟨p, if_neg ?_, Or.inl rfl⟩
      simp only [hp, hlast, or_self, not_false_eq_true]
  obtain ⟨first, rest, hfirst⟩ := List.exists_cons_of_ne_nil (List.splitOn_ne_nil slash q)
  have hafter : ∀ s, pieces (q ++ slash :: s) = first :: (rest ++ pieces s) := by
    intro s
    rw [← List.cons_append, ← hfirst]
    exact List.splitOn_append_cons_self q s
  refine ⟨first, rest, ?_, ?_⟩
  · rcases hq with rfl | hq
    · exact components_of_pieces hp hfirst
    · have hempty : (pieces []).filter isStep = [] := rfl
      rw [components_of_pieces hp ((congrArg pieces hq).trans (hafter [])), List.filter_append,
        hempty, List.append_nil]
  · intro s
    rw [hstem, List.append_assoc, List.singleton_append]
    exact hafter s

/-- Going down names adds them to the components of a path. -/
theorem components_extend (p : Path) {names : List Bytes} (h : ∀ n ∈ names, IsName n) :
    (p.extend names).components = p.components ++ names := by
  cases names with
  | nil => exact (List.append_nil _).symm
  | cons n ns =>
    have hjoined : pieces ([slash].intercalate (n :: ns)) = n :: ns :=
      pieces_intercalate (List.cons_ne_nil n ns) fun m hm => (h m hm).slash_not_mem
    have hne : p.extend (n :: ns) ≠ [] := by
      intro hnil
      have hlt := length_lt_extend p (List.cons_ne_nil n ns) (isPart_of_mem h)
      rw [hnil] at hlt
      exact absurd hlt (Nat.not_lt_zero _)
    rw [extend_cons p (isPart_of_mem h)] at hne ⊢
    by_cases hp : p = []
    · -- the first name comes first, and is not empty
      subst hp
      have hfirst : n ≠ [] := (h n (List.mem_cons_self ..)).ne_nil
      rw [components_of_pieces hne hjoined, if_neg hfirst,
        filter_isStep fun m hm => h m (List.mem_cons_of_mem n hm)]
      rfl
    · obtain ⟨first, rest, hcomponents, hpieces⟩ := exists_pieces_stem hp
      rw [components_of_pieces hne (hpieces _), hcomponents, List.filter_append, hjoined,
        filter_isStep h]
      rfl

/-- The names that a path was reached by can be read back from it. -/
theorem extend_injective (p : Path) {names names' : List Bytes} (h : ∀ n ∈ names, IsName n)
    (h' : ∀ n ∈ names', IsName n) (heq : p.extend names = p.extend names') : names = names' := by
  have hcomponents := congrArg components heq
  rw [components_extend p h, components_extend p h'] at hcomponents
  exact List.append_cancel_left hcomponents

/-! ## Below `.` -/

/-- Names from end to end, none of which can be left out. -/
theorem dropWhile_not_isStep {names : List Bytes} (h : ∀ n ∈ names, isStep n = true) :
    names.dropWhile (!isStep ·) = names := by
  cases names with
  | nil => rfl
  | cons n ns => simp [h n (List.mem_cons_self ..)]

/-- Below `.` a path is, without its `.`, the names alone. -/
theorem belowDot_extend {names : List Bytes} (h : ∀ n ∈ names, IsName n) :
    belowDot (extend [dot] names) = extend [] names := by
  cases names with
  | nil => rfl
  | cons n ns =>
    have hsteps : ∀ m ∈ n :: ns, isStep m = true := fun m hm => (h m hm).isStep
    have hpieces : pieces (extend [dot] (n :: ns)) = [dot] :: n :: ns := by
      rw [extend_cons [dot] (isPart_of_mem h)]
      show pieces ([dot] ++ [slash] ++ [slash].intercalate (n :: ns)) = _
      rw [← List.intercalate_cons_cons]
      apply pieces_intercalate (List.cons_ne_nil [dot] (n :: ns))
      intro m hm
      rcases List.mem_cons.mp hm with rfl | hm
      · decide
      · exact (h m hm).slash_not_mem
    rw [extend_cons [] (isPart_of_mem h)]
    unfold belowDot
    rw [hpieces]
    simp only [if_true]
    rw [dropWhile_not_isStep hsteps,
      dropWhile_not_isStep (fun m hm => hsteps m (List.mem_reverse.mp hm)),
      List.reverse_reverse]
    rfl

end Path

/-- Names in their order are byte strings in their order. -/
theorem Name.map_bytes_lt {as bs : List Name} (h : as < bs) :
    as.map Name.bytes < bs.map Name.bytes := by
  induction h with
  | nil => exact List.Lex.nil
  | rel hlt => exact List.Lex.rel hlt
  | cons _ ih => exact List.Lex.cons ih

/-- The name of an entry can stand in a path. -/
theorem Name.isName (n : Name) : Path.IsName n.bytes := by
  have hproper := n.proper
  simp only [isProperName, decide_eq_true_eq] at hproper
  obtain ⟨hnil, hdot, -, hslash, -⟩ := hproper
  exact ⟨by simp [Path.isStep, hnil, hdot], hslash⟩

theorem Name.isName_of_mem {names : List Name} {n : Bytes} (h : n ∈ names.map Name.bytes) :
    Path.IsName n := by
  obtain ⟨name, -, rfl⟩ := List.mem_map.mp h
  exact name.isName

end LineLimit
