import LineLimit.Proofs.Path
import LineLimit.Proofs.Tree.Order
import LineLimit.Proofs.Tree.Presence
import LineLimit.Proofs.Outcomes
import Mathlib.Tactic.SplitIfs

/-!
# Going on from a directory by name

A look-up that has come to a directory finds each of its entries by name, since no name occurs
twice (`Directory.look_of_mem`). And a path with names after it is looked up by looking up the
path and going on with the names:

> `resolve_extend`: where `p` leads to a directory, `p.extend names` leads where the names lead
> from there, unless it is too long for a look-up.

What leads to a file is not too long, and does not ask for a directory in the end
(`isFile_of_getLast?`).
-/

namespace LineLimit

/-! ## Entries by name -/

theorem find?_of_mem {n : Node} {entries : List Node} (h : Ordered entries) (hn : n ∈ entries) :
    entries.find? (·.name.bytes = n.name.bytes) = some n := by
  induction entries with
  | nil => exact absurd hn List.not_mem_nil
  | cons m ms ih =>
    obtain ⟨-, hlt, hms⟩ := h
    rcases List.mem_cons.mp hn with rfl | hn
    · exact List.find?_cons_of_pos (by simp)
    · have hne : m.name.bytes ≠ n.name.bytes := fun heq =>
        List.lt_irrefl _ (heq ▸ (show m.name.bytes < n.name.bytes from hlt n hn))
      rw [List.find?_cons_of_neg (by simpa using hne)]
      exact ih hms hn

/-- An entry of a directory is seen under its name. -/
theorem Directory.look_of_mem {d : Directory} {n : Node} (hd : d.Ordered)
    (hn : n ∈ d.entries) : d.look n.name.bytes = .ok (n.sight d) := by
  have hproper := n.name.proper
  simp only [isProperName, decide_eq_true_eq] at hproper
  obtain ⟨hnil, hdot, hdots, -, -, hlength⟩ := hproper
  unfold Directory.look
  rw [if_neg (not_or.mpr ⟨hnil, hdot⟩), if_neg hdots, if_neg (Nat.not_lt.mpr hlength),
    find?_of_mem hd.1 hn]

/-- A piece that shows a target leads there. -/
theorem follow_singleton_target {root d : Directory} {piece : Bytes} {t : Target}
    (h : d.look piece = .ok (.target t)) (links : Nat) :
    follow root links [piece] (.directory d) = .ok (t, links) := by
  cases links with
  | zero =>
    rw [follow, followPieces, h]
    rfl
  | succ links =>
    rw [follow, followPieces, h]
    rfl

/-- A piece that shows a link leads where the link leads. -/
theorem follow_singleton_link {root d : Directory} {piece : Bytes} {path : Path}
    (h : d.look piece = .ok (.link path)) (links : Nat) :
    follow root links [piece] (.directory d) = followLink root d links path := by
  cases links with
  | zero =>
    rw [follow, followPieces, h]
    rfl
  | succ links =>
    rw [follow, followPieces, h]
    show follow root links (path.lookupPieces ++ []) _ = _
    rw [List.append_nil]
    rfl

/-! ## A path with names after it -/

namespace Path

variable {p : Path} {names : List Bytes}

/-- What is written after a path adds its pieces to those of the path. -/
theorem filter_pieces_stem (p : Path) (s : Bytes) :
    (p.stem ++ s).pieces.filter (!·.isEmpty) =
      p.pieces.filter (!·.isEmpty) ++ (pieces s).filter (!·.isEmpty) := by
  have hcut : ∀ q : Path, pieces (q ++ slash :: s) = q.pieces ++ (pieces s) :=
    fun q => List.splitOn_append_cons_self q s
  have hends : ∀ q : Path, (q ++ [slash]).pieces.filter (!·.isEmpty) =
      q.pieces.filter (!·.isEmpty) := by
    intro q
    have hsplit : pieces (q ++ [slash]) = q.pieces ++ [[]] := List.splitOn_append_cons_self q []
    rw [hsplit, List.filter_append]
    exact List.append_nil _
  unfold stem
  split
  · next hstem =>
    rcases hstem with rfl | hlast
    · rfl
    · obtain ⟨q, rfl⟩ := List.getLast?_eq_some_iff.mp hlast
      rw [List.append_assoc, List.singleton_append, hcut, List.filter_append, hends]
  · rw [List.append_assoc, List.singleton_append, hcut, List.filter_append]

/-- A look-up of a path with names after it goes through the pieces of the path, and then
through the names. -/
theorem lookupPieces_extend (p : Path) (hne : names ≠ []) (h : ∀ n ∈ names, IsName n) :
    (p.extend names).lookupPieces = p.pieces.filter (!·.isEmpty) ++ names := by
  obtain ⟨n, ns, rfl⟩ := List.exists_cons_of_ne_nil hne
  have hnames : (n :: ns).filter (!·.isEmpty) = n :: ns :=
    List.filter_eq_self.mpr fun m hm => by simp [(h m hm).ne_nil]
  have hpieces : pieces ([slash].intercalate (n :: ns)) = n :: ns :=
    pieces_intercalate hne fun m hm => (h m hm).slash_not_mem
  unfold lookupPieces
  rw [if_neg (getLast?_extend p hne (isPart_of_mem h)), List.append_nil,
    extend_cons p (isPart_of_mem h), filter_pieces_stem, hpieces, hnames]

/-- Names after a path start with the path, and a name does not start with a slash. -/
theorem head?_extend (p : Path) (hne : names ≠ []) (h : ∀ n ∈ names, IsName n) :
    (p.extend names).head? = some slash ↔ p.head? = some slash := by
  cases p with
  | nil =>
    obtain ⟨n, ns, rfl⟩ := List.exists_cons_of_ne_nil hne
    obtain ⟨b, n, rfl⟩ := List.exists_cons_of_ne_nil (h n (List.mem_cons_self ..)).ne_nil
    have hb : b ≠ slash := fun heq =>
      (h _ (List.mem_cons_self ..)).slash_not_mem (heq ▸ List.mem_cons_self ..)
    have hhead : (extend [] ((b :: n) :: ns)).head? = some b := by
      rw [extend_cons [] (isPart_of_mem h)]
      cases ns with
      | nil => rfl
      | cons m ns => rw [List.intercalate_cons_cons]; rfl
    rw [hhead]
    simp [hb]
  | cons b p =>
    obtain ⟨rest, hrest⟩ := prefix_extend (b :: p) names
    rw [← hrest]
    rfl

end Path

namespace TreeView

variable {v : TreeView} {p : Path} {names : List Name} {d : Directory} {links : Nat}

/-- An empty piece asks for a directory, open or closed, and leads nowhere else. -/
theorem follow_empty {root : Directory} {links : Nat} {t : Target} {r : Target × Nat}
    (h : follow root links [[]] t = .ok r) :
    r = (t, links) ∧ ((∃ d, t = .directory d) ∨ t = .closed) := by
  cases t with
  | directory d =>
    have hlook : d.look [] = .ok (.target (.directory d)) := if_pos (.inl rfl)
    exact ⟨Except.ok.inj (h.symm.trans (follow_singleton_target hlook links)), .inl ⟨d, rfl⟩⟩
  | closed => exact ⟨Except.ok.inj (h.symm.trans (follow_singleton_closed root links [])), .inr rfl⟩
  | file c => exact nomatch (follow_singleton_file root links [] c).symm.trans h
  | device => exact nomatch (follow_singleton_device root links []).symm.trans h

/-- Only a directory that may be searched has a `.`, which is the directory itself. -/
theorem follow_dot {root : Directory} {links : Nat} {t : Target} {r : Target × Nat}
    (h : follow root links [[dot]] t = .ok r) : ∃ d, r = (.directory d, links) := by
  cases t with
  | directory d =>
    have hlook : d.look [dot] = .ok (.target (.directory d)) := if_pos (.inr rfl)
    exact ⟨d, Except.ok.inj (h.symm.trans (follow_singleton_target hlook links))⟩
  | closed => exact nomatch (follow_singleton_closed root links [dot]).symm.trans h
  | file c => exact nomatch (follow_singleton_file root links [dot] c).symm.trans h
  | device => exact nomatch (follow_singleton_device root links [dot]).symm.trans h

/-- A slash at the end of a path asks for a directory, and changes nothing where there is
one. -/
theorem follow_pieces_of_lookupPieces {root : Directory} {links k : Nat} {t : Target}
    (h : follow root links p.lookupPieces t = .ok (.directory d, k)) :
    follow root links (p.pieces.filter (!·.isEmpty)) t = .ok (.directory d, k) := by
  unfold Path.lookupPieces at h
  split at h
  · rw [follow_append] at h
    obtain ⟨⟨t', k'⟩, hpieces, hempty⟩ := exists_of_bind_eq_ok h
    exact hpieces.trans (congrArg Except.ok (follow_empty hempty).1.symm)
  · rwa [List.append_nil] at h

theorem resolve_eq_follow (hzero : 0 ∉ p) (hne : p ≠ []) (hlength : p.length < pathLimit) :
    v.resolve p =
      follow v.root linkLimit p.lookupPieces (.directory (v.root.startOf v.here p)) := by
  have hrefusal : p.refusal? = none := by
    unfold Path.refusal?
    rw [if_neg (by simpa using hzero), if_neg (by simpa using hne),
      if_neg (Nat.not_le.mpr hlength)]
  unfold resolve
  rw [hrefusal]

/-- A path that leads somewhere is not refused. -/
theorem follow_of_resolve {r : Target × Nat} (h : v.resolve p = .ok r) :
    0 ∉ p ∧ p ≠ [] ∧
      follow v.root linkLimit p.lookupPieces (.directory (v.root.startOf v.here p)) = .ok r := by
  unfold resolve at h
  split at h
  · exact nomatch h
  · next hrefusal =>
    unfold Path.refusal? at hrefusal
    split_ifs at hrefusal with hzero hnil
    exact ⟨by simpa using hzero, by simpa using hnil, h⟩

/-- A path that leads somewhere is not too long. -/
theorem length_lt_of_resolve {r : Target × Nat} (h : v.resolve p = .ok r) :
    p.length < pathLimit := by
  unfold resolve at h
  split at h
  · exact nomatch h
  · next hrefusal =>
    unfold Path.refusal? at hrefusal
    split_ifs at hrefusal with hzero hnil hlength
    exact Nat.not_le.mp hlength

/-- Another spelling of a path leads where the path does, unless it is too long. -/
theorem resolve_respelled {r : Target × Nat} (h : v.resolve p = .ok r) {p' : Path} (hne : p' ≠ [])
    (hzero : 0 ∈ p' → 0 ∈ p) (hpieces : p'.lookupPieces = p.lookupPieces)
    (hhead : p'.head? = p.head?) (hlength : p'.length < pathLimit) : v.resolve p' = .ok r := by
  obtain ⟨hnone, -, hfollow⟩ := follow_of_resolve h
  have hstart : v.root.startOf v.here p' = v.root.startOf v.here p := by
    rw [Directory.startOf, hhead, Directory.startOf]
  rw [resolve_eq_follow (fun hmem => hnone (hzero hmem)) hne hlength, hpieces, hstart]
  exact hfollow

theorem startOf_extend (p : Path) (hne : names ≠ []) :
    v.root.startOf v.here (p.extend (names.map Name.bytes)) = v.root.startOf v.here p := by
  have hhead := Path.head?_extend p (List.map_eq_nil_iff.not.mpr hne)
    fun _ hn => Name.isName_of_mem hn
  simp only [Directory.startOf, hhead]

/-- No name has a zero byte. -/
theorem zero_not_mem_extend (hzero : 0 ∉ p) (names : List Name) :
    0 ∉ p.extend (names.map Name.bytes) := by
  induction names generalizing p with
  | nil => exact hzero
  | cons name names ih =>
    have hproper := name.proper
    simp only [isProperName, decide_eq_true_eq] at hproper
    refine ih (p := p.child name.bytes) fun hmem => ?_
    rw [Path.child_eq, List.mem_append] at hmem
    rcases hmem with hmem | hmem
    · unfold Path.stem at hmem
      split at hmem
      · exact hzero hmem
      · simp [hzero, slash] at hmem
    · exact hproper.2.2.2.2.1 hmem

/-- A path with names after it is looked up from where the path alone would be. -/
theorem resolve_extend_eq (hzero : 0 ∉ p) (hne : names ≠ [])
    (hlength : (p.extend (names.map Name.bytes)).length < pathLimit) :
    v.resolve (p.extend (names.map Name.bytes)) =
      follow v.root linkLimit (p.pieces.filter (!·.isEmpty) ++ names.map Name.bytes)
        (.directory (v.root.startOf v.here p)) := by
  have hbytes : names.map Name.bytes ≠ [] := List.map_eq_nil_iff.not.mpr hne
  have hnames : ∀ n ∈ names.map Name.bytes, Path.IsName n := fun _ hn => Name.isName_of_mem hn
  have hlong := Path.length_lt_extend p hbytes (Path.isPart_of_mem hnames)
  rw [resolve_eq_follow (zero_not_mem_extend hzero names) (List.ne_nil_of_length_pos (by omega))
      hlength,
    Path.lookupPieces_extend p hbytes hnames, startOf_extend p hne]

/-- Where a path leads to a directory, the path with names after it leads where the names lead
from there. -/
theorem resolve_extend (h : v.resolve p = .ok (.directory d, links)) (hne : names ≠ [])
    (hlength : (p.extend (names.map Name.bytes)).length < pathLimit) :
    v.resolve (p.extend (names.map Name.bytes)) =
      follow v.root links (names.map Name.bytes) (.directory d) := by
  obtain ⟨hzero, -, hfollow⟩ := follow_of_resolve h
  rw [resolve_extend_eq hzero hne hlength, follow_append, follow_pieces_of_lookupPieces hfollow]
  rfl

/-- Names alone lead where they lead from the directory that relative paths start in. -/
theorem resolve_extend_nil (hne : names ≠ [])
    (hlength : (Path.extend [] (names.map Name.bytes)).length < pathLimit) :
    v.resolve (Path.extend [] (names.map Name.bytes)) =
      follow v.root linkLimit (names.map Name.bytes) (.directory v.here) :=
  resolve_extend_eq List.not_mem_nil hne hlength

/-! ## Files -/

theorem isFile_iff : v.isFile p = true ↔ ∃ c links, v.resolve p = .ok (.file c, links) := by
  unfold isFile
  split
  · next c links hresolve => exact iff_of_true rfl ⟨c, links, hresolve⟩
  · next hno => exact iff_of_false (by simp) fun ⟨c, links, h⟩ => hno c links h

/-- A path that is too long is not looked up. -/
theorem length_lt_of_isFile (h : v.isFile p = true) : p.length < pathLimit := by
  obtain ⟨c, links, hresolve⟩ := isFile_iff.mp h
  exact length_lt_of_resolve hresolve

/-- A look-up that ends with a piece which asks for a directory does not lead to a file. -/
theorem isFile_of_getLast? {piece : Bytes} (h : p.lookupPieces.getLast? = some piece)
    (hpiece : piece = [] ∨ piece = [dot]) : v.isFile p = false := by
  obtain ⟨init, hinit⟩ := List.getLast?_eq_some_iff.mp h
  refine Bool.eq_false_iff.mpr fun hfile => ?_
  obtain ⟨c, links, hresolve⟩ := isFile_iff.mp hfile
  obtain ⟨-, -, hfollow⟩ := follow_of_resolve hresolve
  rw [hinit, follow_append] at hfollow
  obtain ⟨r, -, hlast⟩ := exists_of_bind_eq_ok hfollow
  rcases hpiece with rfl | rfl
  · obtain ⟨heq, ⟨d, hdirectory⟩ | hclosed⟩ := follow_empty hlast
    · exact nomatch (congrArg Prod.fst heq).trans hdirectory
    · exact nomatch (congrArg Prod.fst heq).trans hclosed
  · obtain ⟨d, heq⟩ := follow_dot hlast
    exact nomatch heq

end TreeView

end LineLimit
