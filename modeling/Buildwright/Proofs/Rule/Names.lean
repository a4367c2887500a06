import Buildwright.Make.Rules
import Buildwright.Proofs.Path.Relative

/-! # Names of rules

    A quoted name has a mark before its version and no slash, so it is one step
    of a path, and the folder and the fragment of a rule tell it.  It tells the
    package, the name and the version if none of them has a mark and neither
    name nor version has a slash.

    * `Rule.components_workingFolder`, `Make.components_fragmentPath` — the paths;
    * `Rule.Plain`, `Rule.Plain.of_quotedName` — names that can be read back. -/

namespace Buildwright

/-! ## Quoted texts -/

namespace Text

variable {c mark : Char} {cs ds : List Char}

theorem notMem_replaceChar (h : c ≠ mark) (cs : List Char) :
    c ∉ replaceChar c [mark, mark] cs := by
  intro hmem
  obtain ⟨x, -, hx⟩ := List.mem_flatMap.1 hmem
  split at hx
  · simp only [List.mem_cons, List.not_mem_nil, or_false, or_self] at hx
    exact h hx
  next hne => exact hne (List.mem_singleton.1 hx).symm

theorem replaceChar_of_notMem {by_ : List Char} (h : c ∉ cs) : replaceChar c by_ cs = cs := by
  induction cs with
  | nil => rfl
  | cons x rest ih =>
      obtain ⟨hx, hrest⟩ := not_or.1 (List.mem_cons.not.1 h)
      rw [replaceChar, List.flatMap_cons, if_neg (Ne.symm hx)]
      exact congrArg (x :: ·) (ih hrest)

/-- Texts without the mark are told by what two marks in place of a character make of them. -/
theorem replaceChar_injOn (hcs : mark ∉ cs) (hds : mark ∉ ds)
    (h : replaceChar c [mark, mark] cs = replaceChar c [mark, mark] ds) : cs = ds := by
  induction cs generalizing ds with
  | nil =>
      cases ds with
      | nil => rfl
      | cons y ys =>
          rw [replaceChar_nil, replaceChar, List.flatMap_cons] at h
          split at h <;> cases h
  | cons x xs ih =>
      cases ds with
      | nil =>
          rw [replaceChar_nil, replaceChar, List.flatMap_cons] at h
          split at h <;> cases h
      | cons y ys =>
          obtain ⟨hx, hxs⟩ := not_or.1 (List.mem_cons.not.1 hcs)
          obtain ⟨hy, hys⟩ := not_or.1 (List.mem_cons.not.1 hds)
          rw [replaceChar, replaceChar, List.flatMap_cons, List.flatMap_cons] at h
          -- a mark that stands for the character is no character of the other text
          by_cases hxc : x = c
          · by_cases hyc : y = c
            · rw [if_pos hxc, if_pos hyc] at h
              rw [hxc, hyc, ih hxs hys (List.append_cancel_left h)]
            · rw [if_pos hxc, if_neg hyc] at h
              exact absurd (List.cons.inj h).1 hy
          · by_cases hyc : y = c
            · rw [if_neg hxc, if_pos hyc] at h
              exact absurd (List.cons.inj h).1.symm hx
            · rw [if_neg hxc, if_neg hyc] at h
              obtain ⟨rfl, htail⟩ := List.cons.inj h
              rw [ih hxs hys htail]

/-- What stands behind the last mark is told, and so is what stands before it. -/
theorem append_cons_inj {xs ys : List Char} (hxs : mark ∉ xs) (hys : mark ∉ ys)
    (h : cs ++ mark :: xs = ds ++ mark :: ys) : cs = ds ∧ xs = ys := by
  rcases List.append_eq_append_iff.1 h with ⟨more, rfl, hmore⟩ | ⟨more, rfl, hmore⟩
  · cases more with
    | nil => exact ⟨(List.append_nil _).symm, (List.cons.inj hmore).2⟩
    | cons y rest =>
        obtain ⟨-, rfl⟩ := List.cons.inj hmore
        exact absurd (List.mem_append_right _ (List.mem_cons_self ..)) hxs
  · cases more with
    | nil => exact ⟨List.append_nil _, (List.cons.inj hmore).2.symm⟩
    | cons y rest =>
        obtain ⟨-, rfl⟩ := List.cons.inj hmore
        exact absurd (List.mem_append_right _ (List.mem_cons_self ..)) hys

end Text

namespace Rule

variable {r r' : Rule}

theorem toList_fullName (r : Rule) :
    r.fullName.toList = r.plainName.toList ++ '@' :: r.version.toList := by
  rw [fullName, String.toList_append, String.toList_append, List.append_assoc]
  rfl

theorem toList_quotedName (r : Rule) : r.quotedName.toList =
    Text.replaceChar '/' ['@', '@'] r.plainName.toList ++
      '@' :: Text.replaceChar '/' ['@', '@'] r.version.toList := by
  rw [quotedName, quoteName, Text.replace, String.toList_ofList, toList_fullName]
  exact Text.replaceChar_append ..

theorem slash_notMem_quotedName (r : Rule) : '/' ∉ r.quotedName.toList := by
  rw [quotedName, quoteName, Text.replace, String.toList_ofList]
  exact Text.notMem_replaceChar (by decide) _

theorem mark_mem_quotedName (r : Rule) : '@' ∈ r.quotedName.toList := by
  rw [toList_quotedName]
  exact List.mem_append_right _ (List.mem_cons_self ..)

/-! ## Paths -/

/-- What has a mark and no slash is one step of a path. -/
theorem components_join_quoted (base : Path) {name : String} (hmark : '@' ∈ name.toList)
    (hslash : '/' ∉ name.toList) :
    (base.join ⟨name⟩).components = base.components ++ [.name name] := by
  have h := Path.components_join_name base (w := name.toList)
    ⟨List.ne_nil_of_mem hmark, fun h => by rw [h] at hmark; revert hmark; decide⟩
    (fun h => by rw [h] at hmark; revert hmark; decide) hslash
  rwa [String.ofList_toList] at h

theorem components_workingFolder (r : Rule) (buildRoot : Path) :
    (r.workingFolder buildRoot).components = buildRoot.components ++ [.name r.quotedName] :=
  components_join_quoted buildRoot r.mark_mem_quotedName r.slash_notMem_quotedName

/-- Rules share a folder if and only if they share a quoted name. -/
theorem workingFolder_same_iff {buildRoot : Path} :
    (r.workingFolder buildRoot).Same (r'.workingFolder buildRoot) ↔
      r.quotedName = r'.quotedName := by
  rw [Path.Same, components_workingFolder, components_workingFolder, List.append_cancel_left_eq]
  simp

/-! ## Names that can be read back -/

/-- Whether nothing in the full name of a rule can be taken for a separator, except for the
    slashes of its package. -/
structure Plain (r : Rule) : Prop where
  package : '@' ∉ r.package.toList
  name : '@' ∉ r.name.toList ∧ '/' ∉ r.name.toList
  version : '@' ∉ r.version.toList ∧ '/' ∉ r.version.toList

theorem toList_plainName (r : Rule) : r.plainName.toList =
    if r.package = "" then r.name.toList else r.package.toList ++ '/' :: r.name.toList := by
  rw [plainName]
  by_cases h : r.package = ""
  · rw [if_pos (String.isEmpty_iff.2 h), if_pos h]
  · rw [if_neg (String.isEmpty_iff.not.2 h), if_neg h, String.toList_append,
      String.toList_append, List.append_assoc]
    rfl

theorem Plain.mark_notMem (h : r.Plain) : '@' ∉ r.plainName.toList := by
  rw [toList_plainName]
  split
  · exact h.name.1
  · simp only [List.mem_append, List.mem_cons, not_or]
    exact ⟨h.package, by decide, h.name.1⟩

/-- The last slash of a plain name stands before the name. -/
theorem Plain.of_plainName (h : r.Plain) (h' : r'.Plain) (hname : r.plainName = r'.plainName) :
    r.package = r'.package ∧ r.name = r'.name := by
  have hlist := congrArg String.toList hname
  rw [toList_plainName, toList_plainName] at hlist
  by_cases hr : r.package = ""
  · by_cases hr' : r'.package = ""
    · rw [if_pos hr, if_pos hr'] at hlist
      exact ⟨hr.trans hr'.symm, String.toList_inj.1 hlist⟩
    · rw [if_pos hr, if_neg hr'] at hlist
      exact absurd (hlist ▸ List.mem_append_right _ (List.mem_cons_self ..)) h.name.2
  · by_cases hr' : r'.package = ""
    · rw [if_neg hr, if_pos hr'] at hlist
      exact absurd (hlist ▸ List.mem_append_right _ (List.mem_cons_self ..)) h'.name.2
    · rw [if_neg hr, if_neg hr'] at hlist
      obtain ⟨hpackage, hname⟩ := Text.append_cons_inj h.name.2 h'.name.2 hlist
      exact ⟨String.toList_inj.1 hpackage, String.toList_inj.1 hname⟩

/-- A quoted name of plain parts tells all of them. -/
theorem Plain.of_quotedName (h : r.Plain) (h' : r'.Plain) (hname : r.quotedName = r'.quotedName) :
    r.package = r'.package ∧ r.name = r'.name ∧ r.version = r'.version := by
  have hlist := congrArg String.toList hname
  rw [toList_quotedName, toList_quotedName, Text.replaceChar_of_notMem h.version.2,
    Text.replaceChar_of_notMem h'.version.2] at hlist
  obtain ⟨hplain, hversion⟩ := Text.append_cons_inj h.version.1 h'.version.1 hlist
  obtain ⟨hpackage, hname⟩ := h.of_plainName h'
    (String.toList_inj.1 (Text.replaceChar_injOn h.mark_notMem h'.mark_notMem hplain))
  exact ⟨hpackage, hname, String.toList_inj.1 hversion⟩

end Rule

theorem Make.components_fragmentPath (e : Emission) (r : Rule) :
    (fragmentPath e r).components = e.buildRoot.components ++ [.name (r.quotedName ++ ".mk")] := by
  refine Rule.components_join_quoted _ ?_ ?_
  · rw [String.toList_append]
    exact List.mem_append_left _ r.mark_mem_quotedName
  · rw [String.toList_append, List.mem_append, not_or]
    exact ⟨r.slash_notMem_quotedName, by decide⟩

end Buildwright
