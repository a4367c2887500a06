import Buildwright.Proofs.Path.Detours

/-! # Paths inside a directory

    A path lies inside a directory if its normal form goes on where that of the directory ends.
    A relative path behind the directory does so if it regains the directory, for which it has to
    name every name of the directory that it steps out of.  A path has the characters of each of
    its names, so it cannot name what has more of some character than it has itself.

    * `Path.count_le_of_name_mem` — the characters of names;
    * `Path.Within`, `Path.Within.below_parent` — paths inside a directory;
    * `Path.regains_iff_of_notMem` — paths that do not name a directory regain what is in it. -/

namespace Buildwright

/-- Where a name is on top after a step up, the step has cancelled a name. -/
theorem Normal.exists_of_kept_step_parent {s : State} {n : String} {rest : List Component}
    (h : (step s .parent).kept = .name n :: rest) :
    ∃ m, s.kept = .name m :: .name n :: rest := by
  rw [step] at h
  split at h
  · rename_i m kept hkept
    exact ⟨m, hkept.trans (congrArg (.name m :: ·) h)⟩
  · rename_i kept hkept
    rw [hkept] at h
    cases h
  · cases h

namespace Path

variable {p q base rel : Path} {n quoted last : String} {w : List Char} {ws : List (List Char)}
  {names front : List Component} {c : Component} {piece : Piece}

/-! ## Names and characters -/

theorem mem_of_mem_wordPieces {s : Nat} (h : piece ∈ wordPieces s ws)
    (hname : piece.component = .name n) : n.toList ∈ ws := by
  induction ws generalizing s with
  | nil => exact absurd h List.not_mem_nil
  | cons w ws ih =>
      rcases List.mem_append.1 h with h | h
      · rw [Option.mem_toList, pieceOf?] at h
        split_ifs at h <;> obtain rfl := Option.some.inj h
        · cases hname
        · cases hname
        · rw [← Component.name.inj hname, String.toList_ofList]
          exact List.mem_cons_self ..
      · exact List.mem_cons_of_mem _ (ih h)

theorem mem_words_of_name_mem (h : .name n ∈ p.components) : n.toList ∈ p.words := by
  obtain ⟨piece, hpiece, hname⟩ := List.mem_map.1 h
  rw [pieces_eq, List.mem_append] at hpiece
  rcases hpiece with hroot | hword
  · rw [rootPieces] at hroot
    split_ifs at hroot
    · obtain rfl := List.mem_singleton.1 hroot
      cases hname
    · exact absurd hroot List.not_mem_nil
  · exact mem_of_mem_wordPieces hword hname

theorem infix_of_mem_words (h : w ∈ p.words) : w <:+: p.text.toList := by
  obtain ⟨pre, post, hwords⟩ := List.append_of_mem h
  have hafter : ∃ after, ['/'].intercalate (w :: post) = w ++ after := by
    cases post with
    | nil => exact ⟨[], by rw [List.intercalate_singleton, List.append_nil]⟩
    | cons v vs => exact ⟨_, by rw [List.intercalate_cons_cons, List.append_assoc]⟩
  obtain ⟨after, hafter⟩ := hafter
  refine ⟨pre.flatMap fun w => w ++ ['/'], after, ?_⟩
  rw [← intercalate_words, hwords, intercalate_append (List.cons_ne_nil _ _), hafter,
    List.append_assoc]

/-- Nothing is in a normal form that has not come. -/
theorem mem_components_of_mem_normal (h : c ∈ p.normal.components) : c ∈ p.components := by
  rw [components_normal, Normal.components, List.mem_reverse] at h
  exact Normal.mem_of_mem_kept h

/-- A path has the characters of each of its names. -/
theorem count_le_of_name_mem (h : .name n ∈ p.normal.components) (c : Char) :
    n.toList.count c ≤ p.text.toList.count c :=
  (infix_of_mem_words (mem_words_of_name_mem (mem_components_of_mem_normal h))).sublist.count_le c

/-! ## Inside a directory -/

/-- Whether a path lies somewhere below a directory, and is not the directory itself. -/
def Within (p base : Path) : Prop :=
  ∃ names, names ≠ [] ∧ (∀ c ∈ names, c.isName = true) ∧
    p.normal.components = base.normal.components ++ names

theorem within_join_iff (hrel : rel.isAbsolute = false) : (base.join rel).Within base ↔
    ∃ names, names ≠ [] ∧ (∀ c ∈ names, c.isName = true) ∧ rel.Regains base names := by
  refine exists_congr fun names => and_congr_right fun _ => and_congr_right fun hnames => ?_
  rw [components_normal_join base hrel, regains_iff hrel hnames]

/-- What lies inside a directory has a directory around it. -/
theorem Within.exists_parent? (h : p.Within base) : ∃ q, p.parent? = some q := by
  obtain ⟨names, hne, hnames, heq⟩ := h
  rw [components_normal] at heq
  have hcomponents : p.components ≠ [] := fun hnil => hne (List.append_eq_nil_iff.1 (by
    rw [← heq, hnil]
    rfl)).2
  obtain ⟨front, last, hp⟩ := (List.eq_nil_or_concat _).resolve_left hcomponents
  rw [List.concat_eq_append] at hp
  refine Path.exists_parent? (by rw [hp, List.getLast?_concat]) fun hroot => ?_
  -- a root at the end would be at the end of the normal form too
  have hlast : names.getLast? = some .root := by
    rw [← List.getLast?_append_of_ne_nil _ hne, ← heq, hp, hroot, Normal.components, Normal.run,
      List.foldl_append, ← Normal.run, List.getLast?_reverse]
    rfl
  exact Bool.false_ne_true (hnames _ (List.mem_of_getLast? hlast))

/-- The directory around a path inside a directory is that directory or lies below it. -/
theorem Within.below_parent (h : p.Within base) (hq : p.parent? = some q) : q.Below base := by
  obtain ⟨names, hne, hnames, heq⟩ := h
  obtain ⟨c, hc, hp⟩ := components_parent? hq
  obtain ⟨front, top, rfl⟩ := (List.eq_nil_or_concat names).resolve_left hne
  rw [List.concat_eq_append] at hnames heq
  obtain ⟨hfront, htop⟩ := List.forall_mem_append.1 hnames
  rw [← List.append_assoc, components_normal, Normal.components, List.reverse_eq_iff,
    List.reverse_concat, Normal.run, hp, List.foldl_append, ← Normal.run, List.foldl_cons,
    List.foldl_nil] at heq
  -- what is kept up to `q`, from what is kept of the whole path
  have hbelow : ∀ more, (∀ c ∈ more, c.isName = true) →
      (Normal.run q.components).kept = (base.normal.components ++ more).reverse →
        q.Below base := by
    intro more hmore hkept
    refine ⟨more, hmore, ?_⟩
    rw [components_normal, Normal.components, hkept, List.reverse_reverse]
  cases c with
  | root => exact absurd rfl hc
  | current =>
      refine hbelow (front ++ [top]) hnames ?_
      rw [← List.append_assoc, List.reverse_concat]
      exact heq
  | name n => exact hbelow front hfront (List.cons.inj heq).2
  | parent =>
      cases top with
      | root | current | parent => cases htop _ (List.mem_singleton_self _)
      | name t =>
          obtain ⟨m, hkept⟩ := Normal.exists_of_kept_step_parent heq
          refine hbelow (front ++ [.name t] ++ [.name m])
            (List.forall_mem_append.2 ⟨hnames, List.forall_mem_singleton.2 rfl⟩) ?_
          rw [hkept, ← List.append_assoc, ← List.append_assoc, List.reverse_concat,
            List.reverse_concat]

/-- A path that does not name a directory regains what is in it only by going along names, or by
    stepping out of it once and naming it. -/
theorem regains_iff_of_notMem
    (hbase : base.normal.components = front ++ [.name quoted, .name last])
    (hquoted : .name quoted ∉ rel.normal.components) : rel.Regains base names ↔
      rel.normal.components = names ∨ rel.normal.components = .parent :: .name last :: names := by
  constructor
  · rintro ⟨up, back, heq, -, hrestores⟩
    have hback : .name quoted ∉ back := fun hmem => hquoted (by
      rw [heq]
      exact List.mem_append_right _ (List.mem_append_left _ hmem))
    rw [hbase, ← List.singleton_append, ← List.append_assoc] at hrestores
    rcases hrestores with ⟨rfl, hsuffix⟩ | ⟨-, hroot⟩
    · rcases List.suffix_concat_iff.1 hsuffix with rfl | ⟨more, rfl, hmore⟩
      · exact .inl heq
      · rcases List.suffix_concat_iff.1 hmore with rfl | ⟨more, rfl, -⟩
        · exact .inr heq
        · exact absurd (by simp) hback
    · have hmem : .name quoted ∈ Component.root :: back := by
        rw [← hroot]
        simp
      exact absurd ((List.mem_cons.1 hmem).resolve_left nofun) hback
  · rintro (heq | heq)
    · exact ⟨0, [], heq, nofun, .inl ⟨rfl, List.nil_suffix⟩⟩
    · refine ⟨1, [.name last], heq, List.forall_mem_singleton.2 rfl, .inl ⟨rfl, ?_⟩⟩
      rw [hbase]
      exact ⟨front ++ [.name quoted], by rw [List.append_assoc]; rfl⟩

end Path

end Buildwright
