import Buildwright.Proofs.Graph.Cycles
import Buildwright.Proofs.Graph.Order
import Buildwright.Proofs.Loading.Linking
import Buildwright.Proofs.Output.Files
import Buildwright.Proofs.Preparing

/-! # The stages of a run

    A run that succeeds has succeeded at every stage.  What is loaded is numbered
    in the order of loading, so its graph has edges between rules only, every
    rule is emitted, and every file of a rule is among the files of the run.

    * `Session.Stages`, `Session.stages_of_prepare` — what loading, linking and
      preparing have led to;
    * `Session.Stages.order_perm` — every rule is emitted, once;
    * `Session.Stages.ruleFile?` — every file of a rule is there. -/

namespace Buildwright

/-! ## Loaded and linked rules -/

/-- What is loaded is numbered in the order of loading. -/
theorem Loading.numbered_of_load {layout : Layout} {w : Workspace} {roots : List Path}
    {c : Catalog} (h : load layout w roots = .ok c) : c.Numbered := by
  obtain ⟨s, hs, -, hout⟩ := exists_run_of_load h
  obtain ⟨ps, hps⟩ := filled_reachable hs
  rw [← (Progress.outcome_eq_ok_iff.1 hout).2, hps.catalog]
  exact Catalog.numbered_empty.adoptAll ps

namespace RuleSet

variable {s : RuleSet} {rule : Rule} {raw : String} {id : RuleId}

/-- Whether packages have numbers of rules only. -/
def Bounded (s : RuleSet) : Prop :=
  ∀ p ∈ s.packages, ∀ e ∈ p.rules, e.2 < s.rules.length

/-- A dependency names a rule. -/
theorem Bounded.lt_of_target (h : s.Bounded) (ht : s.target rule raw = .ok id) :
    id < s.rules.length := by
  obtain ⟨reference, -, hnamed⟩ := exists_of_bind_eq_ok ht
  rw [named] at hnamed
  cases hpackage : s.package? (reference.resolve rule.package) with
  | none =>
      simp only [hpackage] at hnamed
      cases hnamed
  | some package =>
      cases hrule : package.rules.lookup reference.rule with
      | none =>
          simp only [hpackage, hrule] at hnamed
          cases hnamed
      | some found =>
          have hlt : found < s.rules.length :=
            h package (List.mem_of_find?_eq_some hpackage) _ (mem_of_lookup_eq_some hrule)
          simp only [hpackage, hrule] at hnamed
          cases hversion : reference.version with
          | none =>
              simp only [hversion] at hnamed
              rwa [← Except.ok.inj hnamed]
          | some required =>
              simp only [hversion] at hnamed
              split at hnamed
              · rwa [← Except.ok.inj hnamed]
              · cases hnamed

/-- Linked rules have edges between rules only. -/
theorem Bounded.inRange_of_link (h : s.Bounded) {l : Linked} (hl : s.link = .ok l) :
    l.graph.InRange := by
  obtain ⟨rfl, hlists⟩ := link_eq_ok hl
  intro ids hids id hid
  obtain ⟨rule, -, hrule⟩ := exists_of_mem_mapM hlists hids
  rw [l.size_eq]
  obtain ⟨targets, htargets, hok⟩ := exists_of_bind_eq_ok hrule
  obtain rfl := Except.ok.inj hok
  obtain ⟨raw, -, hraw⟩ := exists_of_mem_mapM htargets (List.mem_eraseDups.1 hid)
  exact h.lt_of_target hraw

end RuleSet

/-- The order of emission is one of all rules. -/
theorem Linked.order_perm (l : Linked) (hn : l.set.Numbered) (hg : l.graph.InRange) :
    (l.condense.vertices l.condense.emission).Perm (List.range l.set.rules.length) := by
  have hc := l.isCondensation_condense hn hg
  rw [hc.emission_eq_range, Condensation.vertices_range, ← l.size_eq]
  exact hc.members_perm

theorem Catalog.Numbered.bounded {c : Catalog} (h : c.Numbered) : c.frozen.Bounded := by
  intro q hq e he
  obtain ⟨p, hp, rfl⟩ := List.mem_map.1 hq
  exact h.packages p hp e he

namespace Session

variable {s : Session} {w : Workspace} {roots : List Path} {p : Prepared} {files : GeneratedFiles}

/-! ## Stages -/

/-- What a session prepares rules with. -/
def preparer (s : Session) (expand : String → Path → Except ExpandFault (List String)) :
    Preparer where
  layout := s.layout
  buildTypes := s.buildTypes
  expand := expand

/-- What loading, linking and preparing have led to. -/
structure Stages (s : Session) (w : Workspace) (roots : List Path) (p : Prepared) : Prop where
  loaded : ∃ c, Loading.load s.layout w roots = .ok c ∧ p.linked.set = c.frozen
  linked : p.linked.set.link = .ok p.linked
  prepared : Prepared.ofLinked (s.preparer w.expand) p.linked = .ok p

theorem stages_of_prepare (h : s.prepare w roots = .ok p) : s.Stages w roots p := by
  obtain ⟨set, hload, hrules⟩ := exists_of_bind_eq_ok h
  obtain ⟨c, hc, hfreeze⟩ := exists_of_bind_eq_ok hload
  obtain ⟨l, hlink, hprepared⟩ := exists_of_bind_eq_ok hrules
  obtain ⟨rfl, -⟩ := Prepared.ofLinked_eq_ok hprepared
  obtain ⟨rfl, -⟩ := RuleSet.link_eq_ok hlink
  exact ⟨⟨c, hc, (Catalog.freeze_eq_ok_iff.1 hfreeze).2⟩, hlink, hprepared⟩

theorem Stages.numbered (h : s.Stages w roots p) : p.linked.set.Numbered := by
  obtain ⟨c, hload, hset⟩ := h.loaded
  rw [hset]
  exact (Loading.numbered_of_load hload).frozen

theorem Stages.inRange (h : s.Stages w roots p) : p.linked.graph.InRange := by
  obtain ⟨c, hload, hset⟩ := h.loaded
  refine RuleSet.Bounded.inRange_of_link ?_ h.linked
  rw [hset]
  exact (Loading.numbered_of_load hload).bounded

/-- A run prepares rules and collects their files. -/
theorem generate_eq_ok (h : s.generate w roots = .ok files) :
    roots ≠ [] ∧ ∃ p, s.prepare w roots = .ok p ∧ s.compilePrepared p = .ok files := by
  by_cases hroots : roots.isEmpty = true
  · rw [generate, if_pos hroots] at h
    cases h
  · rw [generate, if_neg hroots] at h
    obtain ⟨set, hload, hgenerate⟩ := exists_of_bind_eq_ok h
    obtain ⟨p, hrules, hcompile⟩ := exists_of_bind_eq_ok hgenerate
    refine ⟨fun hnil => hroots (List.isEmpty_iff.2 hnil), p, ?_, hcompile⟩
    rw [prepare, hload]
    exact hrules

/-- All files of a run have been collected. -/
theorem storeAll_of_compilePrepared (h : s.compilePrepared p = .ok files) :
    ({} : GeneratedFiles).storeAll (s.emission p).items = (files, .ok ()) := by
  rw [compilePrepared] at h
  cases hcompile : (s.emission p).compile p.linked.condense with
  | mk collected result =>
      rw [hcompile] at h
      cases result with
      | error fault => cases h
      | ok _ =>
          obtain rfl := Except.ok.inj h
          rw [Emission.compile] at hcompile
          cases hcheck : (s.emission p).prepared.linked.set.checkAcyclic p.linked.condense with
          | error fault =>
              rw [hcheck] at hcompile
              cases hcompile
          | ok _ =>
              rw [hcheck] at hcompile
              exact hcompile

theorem rule_emission {id : RuleId} (hid : id < p.linked.set.rules.length) :
    (s.emission p).rule id = p.linked.set.rules[id] := by
  show p.linked.set.rules.getD id default = _
  rw [List.getD_eq_getElem?_getD, List.getElem?_eq_getElem hid]
  rfl

/-- Every rule is emitted, once. -/
theorem Stages.order_perm (h : s.Stages w roots p) :
    (s.emission p).order.Perm (List.range p.linked.set.rules.length) :=
  p.linked.order_perm h.numbered h.inRange

/-- Prepared rules pass the check for cycles: one would have stopped the walk from its rules. -/
theorem Stages.checkAcyclic (h : s.Stages w roots p) :
    p.linked.set.checkAcyclic p.linked.condense = .ok () := by
  cases hcheck : p.linked.set.checkAcyclic p.linked.condense with
  | ok _ => rfl
  | error fault =>
      obtain ⟨k, hk, hcycle⟩ :=
        (RuleSet.checkAcyclic_eq_error_iff p.linked.set p.linked.condense).1 ⟨fault, hcheck⟩
      obtain ⟨v, -, hd⟩ :=
        ((p.linked.isCondensation_condense h.numbered h.inRange).isCycle_iff hk).1 hcycle
      obtain ⟨u, he, -⟩ := id hd
      have hv : v < p.linked.set.rules.length := p.linked.size_eq ▸ he.lt_size
      obtain ⟨order, horder⟩ := Prepared.dependenciesInOrder_of_ofLinked h.numbered h.prepared hv
      obtain ⟨fault', hfault⟩ :=
        (Linked.exists_dependenciesInOrder_error_iff h.inRange).2 ⟨v, .refl v, hd⟩
      rw [hfault] at horder
      cases horder

/-- A run over prepared rules collects their files. -/
theorem Stages.compilePrepared_eq (h : s.Stages w roots p) : s.compilePrepared p =
    (({} : GeneratedFiles).storeAll (s.emission p).items).2.map
      fun _ => (({} : GeneratedFiles).storeAll (s.emission p).items).1 := by
  have hcheck : (s.emission p).prepared.linked.set.checkAcyclic p.linked.condense = .ok () :=
    h.checkAcyclic
  rw [compilePrepared, Emission.compile, hcheck]
  rfl

theorem generate_eq_compilePrepared (hroots : roots ≠ []) (h : s.prepare w roots = .ok p) :
    s.generate w roots = s.compilePrepared p := by
  obtain ⟨set, hload, hrules⟩ := exists_of_bind_eq_ok h
  rw [generate, if_neg (List.isEmpty_iff.not.2 hroots), hload]
  show s.generateRules w.expand set = _
  rw [generateRules, hrules]
  rfl

/-- No item of a format is a fault, and each file is among the files of the run. -/
theorem exists_of_mem_formatItems (hfiles : s.compilePrepared p = .ok files) {format : String}
    (hformat : format ∈ s.formats) {item : Outcome (Path × String)}
    (hitem : item ∈ (s.emission p).formatItems format) :
    ∃ f, item = .ok f ∧ files.get? f.1 = some f.2 := by
  obtain ⟨stored, hitems, -, hfound, -⟩ :=
    GeneratedFiles.storeAll_eq_ok (storeAll_of_compilePrepared hfiles)
  have hall : item ∈ (s.emission p).items := List.mem_flatMap.2 ⟨format, hformat, hitem⟩
  rw [hitems] at hall
  obtain ⟨f, hf, rfl⟩ := List.mem_map.1 hall
  exact ⟨f, rfl, (hfound f hf).2⟩

/-- Every file of a rule is among the files of the run. -/
theorem Stages.ruleFile? (h : s.Stages w roots p) (hfiles : s.compilePrepared p = .ok files)
    {format : String} (hformat : format ∈ s.formats) {id : RuleId}
    (hid : id < p.linked.set.rules.length) :
    ∃ file, (s.emission p).ruleFile? format id = .ok file ∧
      ∀ path text, file = some (path, text) → files.get? path = some text := by
  have horder : id ∈ (s.emission p).order := h.order_perm.mem_iff.2 (List.mem_range.2 hid)
  cases hfile : (s.emission p).ruleFile? format id with
  | error fault =>
      obtain ⟨f, herr, -⟩ := exists_of_mem_formatItems hfiles hformat
        (show .error fault ∈ _ from List.mem_append_left _
          (List.mem_filterMap.2 ⟨id, horder, by rw [hfile]⟩))
      cases herr
  | ok file =>
      refine ⟨file, rfl, ?_⟩
      rintro path text rfl
      obtain ⟨f, hok, hfound⟩ := exists_of_mem_formatItems hfiles hformat
        (show .ok (path, text) ∈ _ from List.mem_append_left _
          (List.mem_filterMap.2 ⟨id, horder, by rw [hfile]; rfl⟩))
      obtain rfl := Except.ok.inj hok
      exact hfound

/-- What has been prepared has files, if no two of them have the same path. -/
theorem generate_of_prepared {paths : List Path} (hroots : roots ≠ [])
    (hload : s.load w roots = .ok p.linked.set) (hlink : p.linked.set.link = .ok p.linked)
    (hprepared : Prepared.ofLinked (s.preparer w.expand) p.linked = .ok p)
    (hcheck : p.linked.set.checkAcyclic p.linked.condense = .ok ())
    (hpaths : (s.emission p).items.map (Except.map Prod.fst) = paths.map .ok)
    (hnodup : (paths.map Path.components).Nodup) :
    s.prepare w roots = .ok p ∧ ∃ files, s.generate w roots = .ok files := by
  have hprepareRules : s.prepareRules w.expand p.linked.set = .ok p := by
    rw [prepareRules, hlink]
    exact hprepared
  obtain ⟨files, hitems, hfiles⟩ := GeneratedFiles.exists_files hpaths
  rw [← hfiles, List.map_map] at hnodup
  obtain ⟨g, hg⟩ := GeneratedFiles.exists_storeAll (g := {}) hnodup fun _ _ => rfl
  have hcompile : (s.emission p).compile p.linked.condense = (g, .ok ()) := by
    have hcheck' : (s.emission p).prepared.linked.set.checkAcyclic p.linked.condense = .ok () :=
      hcheck
    rw [Emission.compile, hcheck', hitems]
    exact hg
  refine ⟨?_, g, ?_⟩
  · rw [prepare, hload]
    exact hprepareRules
  · rw [generate, if_neg (List.isEmpty_iff.not.2 hroots), hload]
    show s.generateRules w.expand p.linked.set = .ok g
    rw [generateRules, hprepareRules]
    show s.compilePrepared p = .ok g
    rw [compilePrepared, hcompile]
    rfl

/-- A run succeeds if it succeeds at every stage, and no two files have the same path. -/
theorem exists_generate {set : RuleSet} {l : Linked} {known : List Resolved}
    {order : List RuleId} {paths : List Path} (hroots : roots ≠ [])
    (hload : s.load w roots = .ok set) (hlink : set.link = .ok l)
    (hrules : set.rules.mapM ((s.preparer w.expand).prepareRule l) = .ok known)
    (howner : Prepared.checkOwnership set known = .ok ())
    (hcheck : set.checkAcyclic l.condense = .ok ())
    (horder : l.condense.vertices l.condense.emission = order)
    (hpaths : ∀ p : Prepared, p.linked = l →
      (⟨s, p, order⟩ : Emission).items.map (Except.map Prod.fst) = paths.map .ok)
    (hnodup : (paths.map Path.components).Nodup) :
    ∃ p files, s.prepare w roots = .ok p ∧ p.linked = l ∧ s.generate w roots = .ok files := by
  obtain ⟨rfl, -⟩ := RuleSet.link_eq_ok hlink
  obtain ⟨p, hprepared⟩ := Prepared.exists_ofLinked hrules howner
  obtain ⟨rfl, -⟩ := Prepared.ofLinked_eq_ok hprepared
  have hemission : s.emission p = ⟨s, p, order⟩ := by rw [emission, horder]
  obtain ⟨hp, files, hfiles⟩ := generate_of_prepared hroots hload hlink hprepared hcheck
    (hemission ▸ hpaths p rfl) hnodup
  exact ⟨p, files, hp, rfl, hfiles⟩

end Session

end Buildwright
