import Buildwright.Proofs.Rule.Objects

/-! # Sources belong to one rule

    Rules are visited in the order of their names, and each claims its sources in
    their order.  The check keeps the first owner of every path, so it stops at
    the first source that another rule has claimed before, and at no other.

    * `Prepared.Undisputed` — claims of which no two rules share a path;
    * `Prepared.conflict?_eq_none_iff`, `Prepared.conflict?_eq_some_iff` — the walk
      through all claims;
    * `Prepared.FirstShared` — the first source that is shared, rule by rule;
    * `Prepared.sources_owned` — when rules can be prepared together, and what is
      reported if not. -/

namespace Buildwright

namespace Prepared

variable {owners claims : List (Path × RuleId)} {path : Path} {first second : RuleId}

/-! ## The walk through the claims -/

/-- Whether no path is claimed by two rules. -/
def Undisputed (claims : List (Path × RuleId)) : Prop :=
  ∀ c ∈ claims, ∀ c' ∈ claims, c.1 = c'.1 → c.2 = c'.2

theorem undisputed_nil : Undisputed [] :=
  fun _ h => absurd h List.not_mem_nil

theorem Undisputed.mono {claims' : List (Path × RuleId)} (h : Undisputed claims')
    (hsub : ∀ c ∈ claims, c ∈ claims') : Undisputed claims :=
  fun c hc c' hc' => h c (hsub c hc) c' (hsub c' hc')

/-- A path that nobody has claimed can be claimed. -/
theorem Undisputed.cons {id : RuleId} (h : Undisputed owners) (hnew : owners.lookup path = none) :
    Undisputed ((path, id) :: owners) := by
  have hother : ∀ c ∈ owners, c.1 ≠ path := fun c hc heq =>
    notMem_keys_of_lookup_eq_none hnew (List.mem_map.2 ⟨c, hc, heq⟩)
  intro c hc c' hc' heq
  rcases List.mem_cons.1 hc with rfl | hc <;> rcases List.mem_cons.1 hc' with rfl | hc'
  · rfl
  · exact absurd heq.symm (hother c' hc')
  · exact absurd heq (hother c hc)
  · exact h c hc c' hc' heq

/-- The first claim on a path that another rule has claimed before. -/
inductive Disputed (owners : List (Path × RuleId)) :
    List (Path × RuleId) → Path → RuleId → RuleId → Prop
  | intro {done rest : List (Path × RuleId)} {path : Path} {first second : RuleId}
      (hdone : Undisputed (owners ++ done)) (hfirst : (path, first) ∈ owners ++ done)
      (hne : first ≠ second) : Disputed owners (done ++ (path, second) :: rest) path first second

/-- A claim that agrees with the owners settles nothing new. -/
theorem Disputed.cons {c : Path × RuleId} {owners' : List (Path × RuleId)}
    (h : Disputed owners' claims path first second) (howners : ∀ e, e ∈ owners' ↔ e ∈ c :: owners) :
    Disputed owners (c :: claims) path first second := by
  have hmem : ∀ done e, e ∈ owners ++ c :: done ↔ e ∈ owners' ++ done := by
    intro done e
    rw [List.mem_append, List.mem_append, howners, List.mem_cons, List.mem_cons]
    tauto
  obtain ⟨hdone, hfirst, hne⟩ := h
  rw [← List.cons_append]
  exact .intro (hdone.mono fun e he => (hmem _ e).1 he) ((hmem _ _).2 hfirst) hne

/-- The walk ends at the first dispute, or there is none. -/
theorem conflict?_spec (claims : List (Path × RuleId)) (howners : Undisputed owners) :
    (conflict? owners claims = none ∧ Undisputed (owners ++ claims)) ∨
      ∃ path first second, conflict? owners claims = some (path, first, second) ∧
        Disputed owners claims path first second := by
  fun_induction conflict? owners claims with
  | case1 owners => exact .inl ⟨rfl, by rwa [List.append_nil]⟩
  | case2 owners path second rest first hlookup hne =>
      refine .inr ⟨path, first, second, rfl, @Disputed.intro owners [] _ _ _ _ ?_ ?_ hne⟩
      · rwa [List.append_nil]
      · rw [List.append_nil]
        exact mem_of_lookup_eq_some hlookup
  | case3 owners path id rest first hlookup heq ih =>
      -- the owner claims its path again
      obtain rfl := not_not.1 heq
      have hmem : (path, first) ∈ owners := mem_of_lookup_eq_some hlookup
      have howned : ∀ e, e ∈ owners ↔ e ∈ (path, first) :: owners := fun e =>
        ⟨List.mem_cons_of_mem _, fun he => (List.mem_cons.1 he).elim (fun heq => heq ▸ hmem) id⟩
      rcases ih howners with ⟨hnone, hall⟩ | ⟨p, i, j, hsome, hdisputed⟩
      · refine .inl ⟨hnone, hall.mono fun e he => ?_⟩
        rw [List.mem_append, List.mem_cons] at he
        rw [List.mem_append]
        rcases he with he | rfl | he
        · exact .inl he
        · exact .inl hmem
        · exact .inr he
      · exact .inr ⟨p, i, j, hsome, hdisputed.cons howned⟩
  | case4 owners path id rest hlookup ih =>
      rcases ih (howners.cons hlookup) with ⟨hnone, hall⟩ | ⟨p, i, j, hsome, hdisputed⟩
      · refine .inl ⟨hnone, hall.mono fun e he => ?_⟩
        rw [List.mem_append, List.mem_cons] at he
        rw [List.mem_append, List.mem_cons]
        tauto
      · exact .inr ⟨p, i, j, hsome, hdisputed.cons fun e => Iff.rfl⟩

/-- A dispute is about a path of two rules. -/
theorem Disputed.not_undisputed (h : Disputed owners claims path first second) :
    ¬ Undisputed (owners ++ claims) := by
  obtain ⟨-, hfirst, hne⟩ := h
  intro hall
  refine hne (hall (path, first) ?_ (path, second) (by simp) rfl)
  rw [List.mem_append] at hfirst ⊢
  exact hfirst.imp id (List.mem_append_left _)

theorem conflict?_eq_none_iff : conflict? [] claims = none ↔ Undisputed claims := by
  rcases conflict?_spec claims undisputed_nil with
    ⟨hnone, hall⟩ | ⟨path, first, second, hsome, hdisputed⟩
  · exact iff_of_true hnone hall
  · exact iff_of_false (by rw [hsome]; nofun) hdisputed.not_undisputed

/-- Where claims are in dispute, the dispute is the only one. -/
theorem Disputed.unique {path' : Path} {first' second' : RuleId}
    (h : Disputed [] claims path first second) (h' : Disputed [] claims path' first' second') :
    (path, first, second) = (path', first', second') := by
  generalize hclaims : claims = claims' at h'
  obtain ⟨hdone, hfirst, hne⟩ := h
  obtain ⟨hdone', hfirst', hne'⟩ := h'
  rw [List.nil_append] at hdone hfirst hdone' hfirst'
  rcases List.append_eq_append_iff.1 hclaims with ⟨mid, rfl, hrest⟩ | ⟨mid, rfl, hrest⟩
  · rcases List.cons_eq_append_iff.1 hrest with ⟨rfl, hcons⟩ | ⟨mid, rfl, -⟩
    · obtain ⟨hclaim, -⟩ := List.cons.inj hcons
      obtain ⟨rfl, rfl⟩ := Prod.mk.inj hclaim
      rw [List.append_nil] at hdone' hfirst'
      obtain rfl : first = first' := hdone _ hfirst _ hfirst' rfl
      rfl
    · -- the first dispute lies in what is settled at the second one
      exact absurd (hdone' _ (List.mem_append_left _ hfirst) _
        (List.mem_append_right _ (List.mem_cons_self ..)) rfl) hne
  · rcases List.cons_eq_append_iff.1 hrest with ⟨rfl, hcons⟩ | ⟨mid, rfl, -⟩
    · obtain ⟨hclaim, -⟩ := List.cons.inj hcons
      obtain ⟨rfl, rfl⟩ := Prod.mk.inj hclaim
      rw [List.append_nil] at hdone hfirst
      obtain rfl : first = first' := hdone' _ hfirst _ hfirst' rfl
      rfl
    · exact absurd (hdone _ (List.mem_append_left _ hfirst') _
        (List.mem_append_right _ (List.mem_cons_self ..)) rfl) hne'

theorem conflict?_eq_some_iff :
    conflict? [] claims = some (path, first, second) ↔ Disputed [] claims path first second := by
  rcases conflict?_spec claims undisputed_nil with
    ⟨hnone, hall⟩ | ⟨path', first', second', hsome, hdisputed⟩
  · rw [hnone]
    exact iff_of_false nofun fun h => h.not_undisputed hall
  · rw [hsome, Option.some.injEq]
    constructor
    · intro heq
      cases heq
      exact hdisputed
    · exact hdisputed.unique

/-! ## The walk through the rules -/

/-- The sources of a rule, of what is known of all rules. -/
def sourcesIn (known : List Resolved) (id : RuleId) : List SourceFile :=
  (known.getD id default).sources

/-- A source of `second` that is also one of `first`, an earlier rule, where no two of the
    rules before `second` share a source and no earlier source of `second` is one of
    theirs. -/
inductive FirstShared (sources : RuleId → List SourceFile) :
    List RuleId → Path → RuleId → RuleId → Prop
  | intro {before after : List RuleId} {first second : RuleId} {done rest : List SourceFile}
      {s : SourceFile} (hsources : sources second = done ++ s :: rest)
      (hfirst : first ∈ before) (hshared : ∃ t ∈ sources first, t.path = s.path)
      (hbefore : ∀ id ∈ before, ∀ id' ∈ before, ∀ t ∈ sources id, ∀ t' ∈ sources id',
        t.path = t'.path → id = id')
      (hdone : ∀ id ∈ before, ∀ t ∈ sources id, ∀ t' ∈ done, t.path ≠ t'.path) :
      FirstShared sources (before ++ second :: after) s.path first second

variable {order : List RuleId} {sources : RuleId → List SourceFile}

/-- The claims of the rules of a list, in order. -/
def claimsOf (sources : RuleId → List SourceFile) (order : List RuleId) : List (Path × RuleId) :=
  order.flatMap fun id => (sources id).map fun s => (s.path, id)

theorem claims_eq (s : RuleSet) (known : List Resolved) :
    Prepared.claims s known = claimsOf (sourcesIn known) s.idsByName :=
  rfl

theorem mem_claimsOf_iff {id : RuleId} :
    (path, id) ∈ claimsOf sources order ↔ id ∈ order ∧ ∃ s ∈ sources id, s.path = path := by
  rw [claimsOf, List.mem_flatMap]
  constructor
  · rintro ⟨id', hid', hmem⟩
    obtain ⟨s, hs, heq⟩ := List.mem_map.1 hmem
    obtain ⟨rfl, rfl⟩ := Prod.mk.inj heq
    exact ⟨hid', s, hs, rfl⟩
  · rintro ⟨hid, s, hs, rfl⟩
    exact ⟨id, hid, List.mem_map.2 ⟨s, hs, rfl⟩⟩

/-- No path is in dispute if and only if no two rules share a source. -/
theorem undisputed_claimsOf_iff : Undisputed (claimsOf sources order) ↔
    ∀ id ∈ order, ∀ id' ∈ order, ∀ s ∈ sources id, ∀ s' ∈ sources id',
      s.path = s'.path → id = id' := by
  constructor
  · intro h id hid id' hid' s hs s' hs' heq
    exact h _ (mem_claimsOf_iff.2 ⟨hid, s, hs, rfl⟩) _ (mem_claimsOf_iff.2 ⟨hid', s', hs', rfl⟩) heq
  · rintro h ⟨path, id⟩ hmem ⟨path', id'⟩ hmem' rfl
    obtain ⟨hid, s, hs, rfl⟩ := mem_claimsOf_iff.1 hmem
    obtain ⟨hid', s', hs', heq⟩ := mem_claimsOf_iff.1 hmem'
    exact h id hid id' hid' s hs s' hs' heq.symm

theorem claimsOf_append (order' : List RuleId) :
    claimsOf sources (order ++ order') = claimsOf sources order ++ claimsOf sources order' :=
  List.flatMap_append

theorem claimsOf_cons (id : RuleId) :
    claimsOf sources (id :: order) =
      (sources id).map (fun s => (s.path, id)) ++ claimsOf sources order :=
  List.flatMap_cons

/-- Every claim is one of a rule, behind those of the rules before it. -/
theorem exists_of_claimsOf_eq_append {done rest : List (Path × RuleId)} {id : RuleId}
    (h : claimsOf sources order = done ++ (path, id) :: rest) :
    ∃ before after u s v, order = before ++ id :: after ∧ sources id = u ++ s :: v ∧
      s.path = path ∧ done = claimsOf sources before ++ u.map fun t => (t.path, id) := by
  induction order generalizing done with
  | nil => exact absurd h.symm (List.append_ne_nil_of_right_ne_nil _ (List.cons_ne_nil _ _))
  | cons id' order ih =>
      rw [claimsOf_cons] at h
      -- the claim is one of the first rule, or of a later one
      rcases List.append_eq_append_iff.1 h with ⟨mid, rfl, horder⟩ | ⟨mid, hsources, hrest⟩
      · obtain ⟨before, after, u, s, v, rfl, hs, hpath, rfl⟩ := ih horder
        refine ⟨id' :: before, after, u, s, v, rfl, hs, hpath, ?_⟩
        rw [claimsOf_cons, List.append_assoc]
      · cases mid with
        | nil =>
            obtain ⟨before, after, u, s, v, rfl, hs, hpath, hdone⟩ :=
              ih (show _ = [] ++ _ from hrest.symm)
            rw [List.append_nil] at hsources
            refine ⟨id' :: before, after, u, s, v, rfl, hs, hpath, ?_⟩
            rw [claimsOf_cons, List.append_assoc, ← hdone, List.append_nil, hsources]
        | cons c mid =>
            obtain ⟨rfl, -⟩ := List.cons.inj hrest
            obtain ⟨u, w, hs, rfl, hw⟩ := List.map_eq_append_iff.1 hsources
            obtain ⟨s, v, rfl, hclaim, -⟩ := List.map_eq_cons_iff.1 hw
            obtain ⟨hpath, rfl⟩ := Prod.mk.inj hclaim
            exact ⟨[], order, u, s, v, rfl, hs, hpath, rfl⟩

/-- A claim of the rules before one, or of the first sources of that one. -/
theorem mem_claimsOf_append_iff {before : List RuleId} {u : List SourceFile}
    {c : Path × RuleId} : c ∈ claimsOf sources before ++ u.map (fun t => (t.path, second)) ↔
      (c.2 ∈ before ∧ ∃ t ∈ sources c.2, t.path = c.1) ∨
        c.2 = second ∧ ∃ t ∈ u, t.path = c.1 := by
  obtain ⟨path, id⟩ := c
  rw [List.mem_append, mem_claimsOf_iff, List.mem_map]
  refine or_congr Iff.rfl ⟨?_, ?_⟩
  · rintro ⟨t, ht, heq⟩
    obtain ⟨rfl, rfl⟩ := Prod.mk.inj heq
    exact ⟨rfl, t, ht, rfl⟩
  · rintro ⟨rfl, t, ht, rfl⟩
    exact ⟨t, ht, rfl⟩

/-- The first claim in dispute is that on the first source that two rules share. -/
theorem disputed_claimsOf_iff (hnodup : order.Nodup) :
    Disputed [] (claimsOf sources order) path first second ↔
      FirstShared sources order path first second := by
  constructor
  · intro h
    generalize hclaims : claimsOf sources order = claims at h
    obtain ⟨hdone, hfirst, hne⟩ := h
    obtain ⟨before, after, u, s, v, rfl, hs, rfl, rfl⟩ := exists_of_claimsOf_eq_append hclaims
    have hnew : second ∉ before := fun hsecond =>
      (List.nodup_append'.1 hnodup).2.2 hsecond (List.mem_cons_self ..)
    rw [List.nil_append] at hdone hfirst
    rcases mem_claimsOf_append_iff.1 hfirst with ⟨hbefore, hshared⟩ | ⟨heq, -⟩
    · refine .intro hs hbefore hshared
        (undisputed_claimsOf_iff.1 (hdone.mono fun c => List.mem_append_left _)) ?_
      intro id hid t ht t' ht' heq
      have hsecond : id = second := hdone (t.path, id) (mem_claimsOf_append_iff.2 (.inl ⟨hid, t, ht, rfl⟩))
        (t'.path, second) (mem_claimsOf_append_iff.2 (.inr ⟨rfl, t', ht', rfl⟩)) heq
      exact hnew (hsecond ▸ hid)
    · exact absurd heq hne
  · rintro ⟨hsources, hfirst, hshared, hbefore, hdone⟩
    rename_i before after done rest s
    have hclaims : claimsOf sources (before ++ second :: after) =
        (claimsOf sources before ++ done.map fun t => (t.path, second)) ++
          (s.path, second) :: (rest.map (fun t => (t.path, second)) ++ claimsOf sources after) := by
      rw [claimsOf_append, claimsOf_cons, hsources, List.map_append, List.map_cons]
      simp only [List.append_assoc, List.cons_append]
    rw [hclaims]
    refine .intro ?_ (mem_claimsOf_append_iff.2 (.inl ⟨hfirst, hshared⟩)) ?_
    · rintro c hc c' hc' heq
      rw [List.nil_append] at hc hc'
      rcases mem_claimsOf_append_iff.1 hc with ⟨hid, t, ht, hpath⟩ | ⟨hid, t, ht, hpath⟩ <;>
        rcases mem_claimsOf_append_iff.1 hc' with ⟨hid', t', ht', hpath'⟩ | ⟨hid', t', ht', hpath'⟩
      · exact hbefore _ hid _ hid' t ht t' ht' (by rw [hpath, hpath', heq])
      · exact absurd (by rw [hpath, hpath', heq]) (hdone _ hid t ht t' ht')
      · exact absurd (by rw [hpath, hpath', heq]) (hdone _ hid' t' ht' t ht)
      · rw [hid, hid']
    · rintro rfl
      exact (List.nodup_append'.1 hnodup).2.2 hfirst (List.mem_cons_self ..)

/-! ## Preparing together what can be prepared one by one -/

variable {P : Preparer} {l : Linked} {known : List Resolved}

/-- What is known of a rule is what preparing has found. -/
theorem found_of_mem_sourcesIn {id : RuleId} {s : SourceFile}
    (hknown : l.set.rules.mapM (P.prepareRule l) = .ok known) (hs : s ∈ sourcesIn known id) :
    ∃ rule, P.Found l rule (known.getD id default) := by
  cases hr : known[id]? with
  | none =>
      rw [sourcesIn, List.getD_eq_getElem?_getD, hr] at hs
      exact absurd hs List.not_mem_nil
  | some r =>
      obtain ⟨rule, -, hrule⟩ := exists_of_mem_mapM hknown (List.mem_of_getElem? hr)
      rw [List.getD_eq_getElem?_getD, hr]
      exact ⟨rule, Preparer.found_of_prepareRule hrule⟩

/-- Sources that are the same have one path. -/
theorem source_path_eq {id id' : RuleId} {s s' : SourceFile}
    (hknown : l.set.rules.mapM (P.prepareRule l) = .ok known) (hs : s ∈ sourcesIn known id)
    (hs' : s' ∈ sourcesIn known id') : s.path.Same s'.path ↔ s.path = s'.path := by
  have hnormal : ∀ {id s}, s ∈ sourcesIn known id → ∃ path : Path, s.path = path.normal := by
    intro id s hs
    obtain ⟨rule, hfound⟩ := found_of_mem_sourcesIn hknown hs
    obtain ⟨found, hpath, -⟩ := hfound.source hs
    exact ⟨_, (Preparer.projectPath_eq_ok_iff.1 hpath).2⟩
  obtain ⟨path, hpath⟩ := hnormal hs
  obtain ⟨path', hpath'⟩ := hnormal hs'
  refine ⟨fun hsame => ?_, fun heq => congrArg Path.components heq⟩
  rw [hpath, hpath'] at hsame ⊢
  rw [path.normal_eq_ofComponents, hsame, ← path'.normal_eq_ofComponents]

/-- Claims are undisputed if no two rules share a source. -/
theorem undisputed_claims_iff (hn : l.set.Numbered)
    (hknown : l.set.rules.mapM (P.prepareRule l) = .ok known) :
    Undisputed (Prepared.claims l.set known) ↔
      ∀ id id', ∀ s ∈ sourcesIn known id, ∀ s' ∈ sourcesIn known id',
        s.path.Same s'.path → id = id' := by
  have hmem : ∀ {id s}, s ∈ sourcesIn known id → id ∈ l.set.idsByName := by
    intro id s hs
    rw [hn.mem_idsByName_iff, ← length_of_mapM hknown]
    by_contra hlt
    rw [sourcesIn, List.getD_eq_default _ _ (Nat.le_of_not_lt hlt)] at hs
    exact absurd hs List.not_mem_nil
  rw [claims_eq, undisputed_claimsOf_iff]
  constructor
  · intro h id id' s hs s' hs' hsame
    exact h id (hmem hs) id' (hmem hs') s hs s' hs' ((source_path_eq hknown hs hs').1 hsame)
  · intro h id _ id' _ s hs s' hs' heq
    exact h id id' s hs s' hs' ((source_path_eq hknown hs hs').2 heq)

/-- **Sources belong to one rule, and nothing else is asked for**: rules that can be prepared one
    by one can be prepared together if and only if no two of them share a source, and if they
    do, the first shared source is reported, with the first rule that has it and the next one
    in the order of names. -/
theorem sources_owned (hn : l.set.Numbered)
    (hknown : l.set.rules.mapM (P.prepareRule l) = .ok known) :
    ((∃ q, ofLinked P l = .ok q) ↔
      ∀ id id', ∀ s ∈ sourcesIn known id, ∀ s' ∈ sourcesIn known id',
        s.path.Same s'.path → id = id') ∧
    l.set.idsByName.Nodup ∧
    ∀ fault, ofLinked P l = .error fault ↔ ∃ path first second,
      FirstShared (sourcesIn known) l.set.idsByName path first second ∧
        fault = .duplicateSource path.text (l.set.fullName first) (l.set.fullName second) := by
  have hnodup : l.set.idsByName.Nodup :=
    hn.idsByName_perm.nodup_iff.2 List.nodup_range
  obtain ⟨q, hq⟩ := exists_ofLinked_eq hknown
  rw [checkOwnership] at hq
  refine ⟨?_, hnodup, fun fault => ?_⟩
  · rw [← undisputed_claims_iff hn hknown, ← conflict?_eq_none_iff]
    cases hconflict : conflict? [] (Prepared.claims l.set known) with
    | none =>
        rw [hconflict] at hq
        exact iff_of_true ⟨q, hq⟩ rfl
    | some found =>
        rw [hconflict] at hq
        refine iff_of_false ?_ (Option.some_ne_none _)
        rintro ⟨q', hq'⟩
        cases hq.symm.trans hq'
  · simp only [← disputed_claimsOf_iff hnodup, ← claims_eq, ← conflict?_eq_some_iff]
    cases hconflict : conflict? [] (Prepared.claims l.set known) with
    | none =>
        rw [hconflict] at hq
        constructor
        · intro h
          cases hq.symm.trans h
        · rintro ⟨_, _, _, h, _⟩
          cases h
    | some found =>
        obtain ⟨path, first, second⟩ := found
        rw [hconflict] at hq
        rw [hq]
        constructor
        · intro h
          exact ⟨path, first, second, rfl, (Except.error.inj h).symm⟩
        · rintro ⟨_, _, _, h, rfl⟩
          cases h
          rfl

end Prepared

/-! ## A source of two programs -/

namespace Ownership

/-- A program of the package `pkg`. -/
def program (id : RuleId) (name : String) (srcs : List String) : Rule where
  id := id
  package := "pkg"
  declaration := {
    type := .ccBinary
    name := name
    version := "DEFAULT"
    deps := []
    attributes := .cc { srcs } }

/-- Three programs, where the third one spells a source of the first one in its own way. -/
def programs : Linked where
  set := {
    rules := [program 0 "a" ["x.cc"], program 1 "b" ["y.cc", "./y.cc"],
      program 2 "c" ["z.cc", "../pkg/x.cc"]]
    packages := [⟨"pkg", ⟨"/proj/pkg/BUILD"⟩, [("a", 0), ("b", 1), ("c", 2)]⟩] }
  graph := ⟨[[], [], []]⟩
  size_eq := rfl

/-- What is known of a program with the given sources. -/
def known (name : String) (sources : List SourceFile) : Resolved where
  sources := sources
  artifacts := [(.debug, [⟨"build/pkg@@" ++ name ++ "@DEFAULT/DEBUG/" ++ name⟩])]

def allKnown : List Resolved :=
  [known "a" [⟨"x.cc", ⟨"pkg/x.cc"⟩⟩], known "b" [⟨"y.cc", ⟨"pkg/y.cc"⟩⟩, ⟨"y.cc", ⟨"pkg/y.cc"⟩⟩],
    known "c" [⟨"z.cc", ⟨"pkg/z.cc"⟩⟩, ⟨"x.cc", ⟨"pkg/x.cc"⟩⟩]]

/-- Each of the programs can be prepared. -/
theorem programs_known :
    programs.set.rules.mapM (Objects.preparer.prepareRule programs) = .ok allKnown := by
  have hfirst : programs.dependenciesInOrder 0 = .ok [] := by cbv
  have hsecond : programs.dependenciesInOrder 1 = .ok [] := by cbv
  have hthird : programs.dependenciesInOrder 2 = .ok [] := by cbv
  refine mapM_cons_eq_ok_iff.2 ⟨_, _, ?_, mapM_cons_eq_ok_iff.2 ⟨_, _, ?_,
    mapM_cons_eq_ok_iff.2 ⟨_, _, ?_, rfl, rfl⟩, rfl⟩, rfl⟩
  · rw [Preparer.prepareRule, show (program 0 _ _).id = 0 from rfl, hfirst]
    rfl
  · rw [Preparer.prepareRule, show (program 1 _ _).id = 1 from rfl, hsecond]
    rfl
  · rw [Preparer.prepareRule, show (program 2 _ _).id = 2 from rfl, hthird]
    rfl

/-- The programs cannot be prepared together, for the first and the third one share a source. -/
theorem programs_disputed :
    programs.set.Numbered ∧
    programs.set.rules.mapM (Objects.preparer.prepareRule programs) = .ok allKnown ∧
    (¬ ∃ q, Prepared.ofLinked Objects.preparer programs = .ok q) ∧
    Prepared.ofLinked Objects.preparer programs =
      .error (.duplicateSource "pkg/x.cc" "pkg/a@DEFAULT" "pkg/c@DEFAULT") := by
  have hn : programs.set.Numbered := by decide
  have hnames : programs.set.idsByName = [0, 1, 2] :=
    RuleSet.idsByName_of_pairwise (by decide +kernel)
  obtain ⟨hok, -, herror⟩ := Prepared.sources_owned hn programs_known
  refine ⟨hn, programs_known, ?_, (herror _).2 ⟨⟨"pkg/x.cc"⟩, 0, 2, ?_, ?_⟩⟩
  · rw [hok]
    intro h
    have : 0 = 2 := h 0 2 ⟨"x.cc", ⟨"pkg/x.cc"⟩⟩ (by decide +kernel) ⟨"x.cc", ⟨"pkg/x.cc"⟩⟩
      (by decide +kernel) rfl
    cases this
  · rw [hnames]
    -- the rule after `a` and `b`, and its source after `z.cc`
    exact @Prepared.FirstShared.intro _ [0, 1] [] 0 2 [⟨"z.cc", ⟨"pkg/z.cc"⟩⟩] []
      ⟨"x.cc", ⟨"pkg/x.cc"⟩⟩ (by decide +kernel) (by decide +kernel) (by decide +kernel)
      (by decide +kernel) (by decide +kernel)
  · decide +kernel

end Ownership

end Buildwright
