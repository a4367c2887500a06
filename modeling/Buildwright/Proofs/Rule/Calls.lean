import Buildwright.Proofs.Lookup
import Buildwright.Proofs.Outcome
import Buildwright.Rule.Declaration

/-! # Calls that declare rules

    The attributes of a call are read one after the other, in the order of the names that a call
    of the type can have, and the first one that is not what it should be is the fault of the
    call.  Only if there is none, a name is looked for that no call of the type can have.  So what
    a call declares depends on the values of its attributes and not on their order, and so does
    its fault, unless it is that a name is not known.

    * `Declaration.Form`, `Declaration.WellFormed` — what attributes should be;
    * `Declaration.attributesOf_eq`, `Declaration.ofCall_eq` — reading as checking;
    * `Declaration.ofCall_exact` — what calls declare, and their faults. -/

namespace Buildwright

theorem RuleType.ofName?_eq_some_iff {name : String} {type : RuleType} :
    ofName? name = some type ↔ name = type.name := by
  constructor
  · intro h
    have hname := List.find?_some h
    exact (of_decide_eq_true hname).symm
  · rintro rfl
    cases type <;> decide

namespace Declaration

/-! ## What attributes should be -/

/-- What the value of an attribute should be. -/
inductive Form where
  /-- A text that is not empty, and that has to be given. -/
  | text
  /-- A text that is not empty, or a number. -/
  | version
  /-- A list, or one text. -/
  | list
deriving DecidableEq

def formOf (key : String) : Form :=
  if key = "name" ∨ key = "install_script" ∨ key = "script" then .text
  else if key = "version" then .version
  else .list

/-- Whether an attribute has a value of a form, or may be left out. -/
def Form.Admits (value : Option Argument) : Form → Prop
  | text => ∃ s, value = some (.text s) ∧ s ≠ ""
  | version =>
    value = none ∨ (∃ s, value = some (.text s) ∧ s ≠ "") ∨ ∃ n, value = some (.number n)
  | list => value = none ∨ (∃ items, value = some (.list items)) ∨ ∃ s, value = some (.text s)

variable {values : String → Option Argument} {type : RuleType} {key rule reason : String}
  {keys : List String} {value : Option Argument} {form : Form}

/-- Whether all attributes that a call of a type can have are what they should be. -/
def WellFormed (type : RuleType) (values : String → Option Argument) : Prop :=
  ∀ key ∈ knownNames type, (formOf key).Admits (values key)

/-- What is wrong with the value of an attribute. -/
def complaint? : Form → Option Argument → Option String
  | .text, none => some "is required"
  | _, none => none
  | .list, some (.list _) => none
  | .list, some (.text _) => none
  | .list, some other => some ("must be a list, got " ++ other.kind)
  | .version, some (.number _) => none
  | _, some (.text s) => if s.isEmpty then some "must not be empty" else none
  | _, some other => some ("must be a string, got " ++ other.kind)

theorem complaint?_eq_none_iff : complaint? form value = none ↔ form.Admits value := by
  cases form <;> rcases value with _ | (s | items | b | n) <;> simp [complaint?, Form.Admits]

/-- The first attribute that is not what it should be, and what is wrong with it. -/
def defect? (values : String → Option Argument) (keys : List String) :
    Option (String × String) :=
  keys.findSome? fun key => (complaint? (formOf key) (values key)).map (key, ·)

theorem defect?_cons (values : String → Option Argument) (key : String) (keys : List String) :
    defect? values (key :: keys) =
      match complaint? (formOf key) (values key) with
      | some reason => some (key, reason)
      | none => defect? values keys := by
  rw [defect?, List.findSome?_cons]
  cases complaint? (formOf key) (values key) <;> rfl

theorem defect?_eq_none_iff : defect? values (knownNames type) = none ↔ WellFormed type values := by
  rw [defect?, List.findSome?_eq_none_iff]
  refine forall₂_congr fun key _ => ?_
  rw [Option.map_eq_none_iff, complaint?_eq_none_iff]

/-! ## What a call declares -/

def textOf (values : String → Option Argument) (key : String) : String :=
  match values key with
  | some (.text s) => s
  | _ => ""

/-- A text stands for a list of one, and nothing for none. -/
def textsOf (values : String → Option Argument) (key : String) : List String :=
  match values key with
  | some (.list items) => items
  | some (.text s) => [s]
  | _ => []

def versionText (values : String → Option Argument) : String :=
  match values "version" with
  | some (.text s) => s
  | some (.number n) => toString n
  | _ => defaultVersion

def attributesFrom (values : String → Option Argument) : RuleType → Attributes
  | .externalProject =>
    .external { installScript := textOf values "install_script", exports := textsOf values "exports" }
  | .shellScript => .script { script := textOf values "script", outputs := textsOf values "outputs" }
  | type => .cc {
      srcs := textsOf values "srcs"
      headers := textsOf values "headers"
      excludes := textsOf values "excludes"
      include_ := textsOf values "include"
      defines := textsOf values "defines"
      cflags := textsOf values "cflags"
      cxxflags := textsOf values "cxxflags"
      ldflags := textsOf values "ldflags"
      args := if type.isTest then textsOf values "args" else [] }

/-- The declaration with the values that attributes have. -/
def declared (type : RuleType) (values : String → Option Argument) : Declaration where
  type := type
  name := textOf values "name"
  version := versionText values
  deps := textsOf values "deps"
  attributes := attributesFrom values type

/-! ## Reading as checking -/

/-- Check an attribute. -/
def inspect (values : String → Option Argument) (rule key : String) : Outcome Unit :=
  match complaint? (formOf key) (values key) with
  | none => .ok ()
  | some reason => .error (.badAttribute rule key reason)

/-- The fault of attributes that are checked one after the other is that of the first one that is
    not what it should be. -/
theorem forM_inspect (values : String → Option Argument) (rule : String) (keys : List String) :
    forM keys (inspect values rule) =
      match defect? values keys with
      | none => .ok ()
      | some (key, reason) => .error (.badAttribute rule key reason) := by
  induction keys with
  | nil => rfl
  | cons key keys ih =>
      rw [List.forM_cons, ih, inspect, defect?_cons]
      cases complaint? (formOf key) (values key) <;> rfl

variable {as : Arguments}

theorem text_eq (hkey : formOf key = .text) : text as rule key =
    inspect as.get? rule key >>= fun _ => .ok (textOf as.get? key) := by
  rw [inspect, hkey, text, text?, textOf]
  rcases as.get? key with _ | (s | items | b | n)
  case some.text =>
    simp only [complaint?]
    cases s.isEmpty <;> rfl
  all_goals rfl

theorem list_eq (hkey : formOf key = .list) : list as rule key =
    inspect as.get? rule key >>= fun _ => .ok (textsOf as.get? key) := by
  rw [inspect, hkey, list, textsOf]
  rcases as.get? key with _ | (s | items | b | n) <;> rfl

theorem versionOf_eq : versionOf as rule =
    inspect as.get? rule "version" >>= fun _ => .ok (versionText as.get?) := by
  rw [inspect, show formOf "version" = .version by decide, versionOf, text?, versionText]
  rcases as.get? "version" with _ | (s | items | b | n)
  case some.text =>
    simp only [complaint?]
    cases s.isEmpty <;> rfl
  all_goals rfl

/-- The attributes of a type are those that have been checked. -/
theorem attributesOf_eq (as : Arguments) (rule : String) (type : RuleType) :
    attributesOf as rule type = forM (attributeNames type) (inspect as.get? rule) >>= fun _ =>
      .ok (attributesFrom as.get? type) := by
  cases type with
  | externalProject | shellScript =>
      simp (disch := decide) only [attributesOf, attributeNames, text_eq, list_eq, List.forM_cons,
        List.forM_nil, bind_assoc]
      rfl
  | ccLibrary | ccBinary =>
      simp (disch := decide) only [attributesOf, ccAttributes, attributeNames, list_eq,
        List.forM_cons, List.forM_nil, bind_assoc]
      rfl
  | ccTest =>
      have htest : RuleType.ccTest.isTest = true := rfl
      simp (disch := decide) only [attributesOf, ccAttributes, attributeNames, list_eq,
        List.forM_cons, List.forM_nil, bind_assoc, htest, if_true]
      rfl

/-! ## Calls -/

variable {call : Call} {path : Path}

/-- The rule that a fault of an attribute names: as long as its name has not been read, the rule
    type stands for it. -/
def blamed (call : Call) (path : Path) (key : String) : String :=
  path.text ++ ":" ++ if key = "name" then call.typeName else textOf call.arguments.get? "name"

/-- A name that is not known is not the name of the rule. -/
theorem ne_name_of_find? {names : List String}
    (h : names.find? (· ∉ knownNames type) = some key) : key ≠ "name" := by
  rintro rfl
  have hunknown := List.find?_some h
  exact of_decide_eq_true hunknown (List.mem_cons_self ..)

theorem mem_of_defect?_eq_some (h : defect? values keys = some (key, reason)) : key ∈ keys := by
  obtain ⟨key', hmem, heq⟩ := List.exists_of_findSome?_eq_some h
  obtain ⟨reason', -, hpair⟩ := Option.map_eq_some_iff.1 heq
  rw [← (Prod.mk.inj hpair).1]
  exact hmem

/-- A call is checked as a whole: its attributes in the order of the names that it can have, and
    then the names. -/
theorem ofCall_eq (htype : call.typeName = type.name) (path : Path) : ofCall call path =
    match defect? call.arguments.get? (knownNames type) with
    | some (key, reason) => .error (.badAttribute (blamed call path key) key reason)
    | none =>
      match call.arguments.names.find? (· ∉ knownNames type) with
      | some key => .error (.badAttribute (blamed call path key) key "is not recognised")
      | none => .ok (declared type call.arguments.get?) := by
  have hname : "name" ∉ "version" :: "deps" :: attributeNames type := by cases type <;> decide
  have hblamed : ∀ key, key ≠ "name" →
      path.text ++ ":" ++ textOf call.arguments.get? "name" = blamed call path key :=
    fun key hkey => by rw [blamed, if_neg hkey]
  have hchecks : ofCall call path =
      inspect call.arguments.get? (path.text ++ ":" ++ call.typeName) "name" >>= fun _ =>
        forM ("version" :: "deps" :: attributeNames type) (inspect call.arguments.get?
          (path.text ++ ":" ++ textOf call.arguments.get? "name")) >>= fun _ =>
        checkNames call.arguments (path.text ++ ":" ++ textOf call.arguments.get? "name") type
          >>= fun _ => .ok (declared type call.arguments.get?) := by
    rw [ofCall, RuleType.ofName?_eq_some_iff.2 htype]
    simp (disch := decide) only [text_eq, versionOf_eq, list_eq, attributesOf_eq, List.forM_cons,
      bind_assoc]
    rfl
  rw [hchecks, forM_inspect, inspect, show defect? call.arguments.get? (knownNames type) = _ from
    defect?_cons _ "name" _]
  cases complaint? (formOf "name") (call.arguments.get? "name") with
  | some reason => rfl
  | none =>
      cases hdefect : defect? call.arguments.get? ("version" :: "deps" :: attributeNames type) with
      | some defect =>
          obtain ⟨key, reason⟩ := defect
          have hkey : key ≠ "name" := fun heq => hname (heq ▸ mem_of_defect?_eq_some hdefect)
          simp only [hblamed key hkey]
          rfl
      | none =>
          simp only [checkNames]
          cases hunknown : call.arguments.names.find? (· ∉ knownNames type) with
          | none => rfl
          | some key =>
              simp only [hblamed key (ne_name_of_find? hunknown)]
              rfl

/-- A call of no known type. -/
theorem ofCall_of_forall_ne (h : ∀ type : RuleType, call.typeName ≠ type.name) (path : Path) :
    ofCall call path = .error (.unknownRuleType call.typeName path.text) := by
  have hnone : RuleType.ofName? call.typeName = none :=
    Option.eq_none_iff_forall_ne_some.2 fun type htype =>
      h type (RuleType.ofName?_eq_some_iff.1 htype)
  rw [ofCall, hnone]

/-- A call with an attribute that is not what it should be. -/
theorem ofCall_of_defect (htype : call.typeName = type.name) (path : Path)
    (h : defect? call.arguments.get? (knownNames type) = some (key, reason)) :
    ofCall call path = .error (.badAttribute (blamed call path key) key reason) := by
  rw [ofCall_eq htype, h]

/-- A call with a name that is not known. -/
theorem ofCall_of_unknown (htype : call.typeName = type.name) (path : Path)
    (hwell : WellFormed type call.arguments.get?)
    (h : call.arguments.names.find? (· ∉ knownNames type) = some key) :
    ofCall call path = .error (.badAttribute (blamed call path key) key "is not recognised") := by
  rw [ofCall_eq htype, defect?_eq_none_iff.2 hwell, h]

/-- A call with nothing wrong. -/
theorem ofCall_of_known (htype : call.typeName = type.name) (path : Path)
    (hwell : WellFormed type call.arguments.get?)
    (h : ∀ key ∈ call.arguments.names, key ∈ knownNames type) :
    ofCall call path = .ok (declared type call.arguments.get?) := by
  have hnone : call.arguments.names.find? (· ∉ knownNames type) = none :=
    List.find?_eq_none.2 fun key hkey => by simpa using h key hkey
  rw [ofCall_eq htype, defect?_eq_none_iff.2 hwell, hnone]

/-- A call is of no known type, or has an attribute that is not what it should be, or has a name
    that is not known, or nothing is wrong with it. -/
theorem call_cases (call : Call) : (∀ type : RuleType, call.typeName ≠ type.name) ∨
    ∃ type : RuleType, call.typeName = type.name ∧
      ((∃ key reason, defect? call.arguments.get? (knownNames type) = some (key, reason)) ∨
        WellFormed type call.arguments.get? ∧
          ((∃ key, call.arguments.names.find? (· ∉ knownNames type) = some key) ∨
            ∀ key ∈ call.arguments.names, key ∈ knownNames type)) := by
  by_cases htype : ∃ type : RuleType, call.typeName = type.name
  · obtain ⟨type, htype⟩ := htype
    refine .inr ⟨type, htype, ?_⟩
    cases hdefect : defect? call.arguments.get? (knownNames type) with
    | some defect => exact .inl ⟨defect.1, defect.2, rfl⟩
    | none =>
        refine .inr ⟨defect?_eq_none_iff.1 hdefect, ?_⟩
        cases hunknown : call.arguments.names.find? (· ∉ knownNames type) with
        | some key => exact .inl ⟨key, rfl⟩
        | none =>
            refine .inr fun key hkey => ?_
            simpa using List.find?_eq_none.1 hunknown key hkey
  · exact .inl fun type heq => htype ⟨type, heq⟩

/-- What a call declares. -/
theorem ofCall_eq_ok_iff {d : Declaration} : ofCall call path = .ok d ↔
    ∃ type : RuleType, call.typeName = type.name ∧ WellFormed type call.arguments.get? ∧
      (∀ key ∈ call.arguments.names, key ∈ knownNames type) ∧
      d = declared type call.arguments.get? := by
  constructor
  · intro h
    rcases call_cases call with hnone | ⟨type, htype, ⟨key, reason, hdefect⟩ | ⟨hwell, hnames⟩⟩
    · rw [ofCall_of_forall_ne hnone] at h
      cases h
    · rw [ofCall_of_defect htype path hdefect] at h
      cases h
    · rcases hnames with ⟨key, hunknown⟩ | hknown
      · rw [ofCall_of_unknown htype path hwell hunknown] at h
        cases h
      · rw [ofCall_of_known htype path hwell hknown] at h
        exact ⟨type, htype, hwell, hknown, (Except.ok.inj h).symm⟩
  · rintro ⟨type, htype, hwell, hknown, rfl⟩
    exact ofCall_of_known htype path hwell hknown

/-- The faults of calls. -/
theorem ofCall_eq_error_iff {fault : Fault} : ofCall call path = .error fault ↔
    (∀ type : RuleType, call.typeName ≠ type.name) ∧
        fault = .unknownRuleType call.typeName path.text ∨
      ∃ (type : RuleType) (key reason : String), call.typeName = type.name ∧
        fault = .badAttribute (blamed call path key) key reason ∧
        (key ∈ knownNames type ∧
            defect? call.arguments.get? (knownNames type) = some (key, reason) ∨
          WellFormed type call.arguments.get? ∧
            call.arguments.names.find? (· ∉ knownNames type) = some key ∧
            reason = "is not recognised") := by
  constructor
  · intro h
    rcases call_cases call with hnone | ⟨type, htype, ⟨key, reason, hdefect⟩ | ⟨hwell, hnames⟩⟩
    · rw [ofCall_of_forall_ne hnone] at h
      exact .inl ⟨hnone, (Except.error.inj h).symm⟩
    · rw [ofCall_of_defect htype path hdefect] at h
      exact .inr ⟨type, key, reason, htype, (Except.error.inj h).symm,
        .inl ⟨mem_of_defect?_eq_some hdefect, hdefect⟩⟩
    · rcases hnames with ⟨key, hunknown⟩ | hknown
      · rw [ofCall_of_unknown htype path hwell hunknown] at h
        exact .inr ⟨type, key, _, htype, (Except.error.inj h).symm, .inr ⟨hwell, hunknown, rfl⟩⟩
      · rw [ofCall_of_known htype path hwell hknown] at h
        cases h
  · rintro (⟨hnone, rfl⟩ | ⟨type, key, reason, htype, rfl, ⟨-, hdefect⟩ | ⟨hwell, hunknown, rfl⟩⟩)
    · exact ofCall_of_forall_ne hnone path
    · exact ofCall_of_defect htype path hdefect
    · exact ofCall_of_unknown htype path hwell hunknown

/-- The order of the arguments counts only where several of their names are not known. -/
theorem ofCall_of_perm {call' : Call} (hname : call.typeName = call'.typeName)
    (h : call.arguments.entries.Perm call'.arguments.entries) (path : Path) :
    ofCall call path = ofCall call' path ∨
      ∃ (type : RuleType) (rule key key' : String), call.typeName = type.name ∧
        WellFormed type call.arguments.get? ∧
        call.arguments.names.find? (· ∉ knownNames type) = some key ∧
        call'.arguments.names.find? (· ∉ knownNames type) = some key' ∧
        ofCall call path = .error (.badAttribute rule key "is not recognised") ∧
        ofCall call' path = .error (.badAttribute rule key' "is not recognised") := by
  have hvalues : call.arguments.get? = call'.arguments.get? :=
    funext fun key => lookup_eq_of_perm call.arguments.distinct h key
  have hblamed : ∀ key, blamed call path key = blamed call' path key := fun key => by
    rw [blamed, blamed, hvalues, hname]
  have hnames : ∀ key, key ∈ call.arguments.names ↔ key ∈ call'.arguments.names := fun key =>
    (h.map Prod.fst).mem_iff
  rcases call_cases call' with hnone | ⟨type, htype, ⟨key, reason, hdefect⟩ | ⟨hwell, hall⟩⟩
  · left
    rw [ofCall_of_forall_ne hnone, ofCall_of_forall_ne (hname ▸ hnone), hname]
  · left
    rw [ofCall_of_defect htype path hdefect,
      ofCall_of_defect (hname ▸ htype) path (hvalues ▸ hdefect), hblamed]
  · rcases hall with ⟨key', hunknown'⟩ | hknown
    · right
      -- the other order has a first name that is not known, too
      cases hunknown : call.arguments.names.find? (· ∉ knownNames type) with
      | none =>
          have hmem := (hnames key').2 (List.mem_of_find?_eq_some hunknown')
          have hnot := List.find?_some hunknown'
          exact absurd hnot (List.find?_eq_none.1 hunknown key' hmem)
      | some key =>
          have hrule : blamed call' path key' = blamed call path key := by
            rw [blamed, blamed, if_neg (ne_name_of_find? hunknown),
              if_neg (ne_name_of_find? hunknown'), hvalues]
          refine ⟨type, blamed call path key, key, key', hname ▸ htype, hvalues ▸ hwell,
            hunknown, hunknown', ofCall_of_unknown (hname ▸ htype) path (hvalues ▸ hwell) hunknown, ?_⟩
          rw [← hrule]
          exact ofCall_of_unknown htype path hwell hunknown'
    · left
      rw [ofCall_of_known htype path hwell hknown, ofCall_of_known (hname ▸ htype) path
        (hvalues ▸ hwell) fun key hkey => hknown key ((hnames key).1 hkey), hvalues]

/-- **What calls declare, and their faults.** A call declares a rule if and only if it is of a
    known type, its attributes are what they should be and it has no other names, and the rule has
    the values of the attributes.  Otherwise the fault of the call is that its type is not known;
    or the first attribute, in the order of the names that a call of the type can have, that is
    not what it should be; or, only if there is none, the first name, in the order of the
    arguments, that is not known.  So the order of the arguments does not count, except that of
    several names that are not known the first is blamed. -/
theorem ofCall_exact (call : Call) (path : Path) :
    (∀ d, ofCall call path = .ok d ↔ ∃ type : RuleType, call.typeName = type.name ∧
      WellFormed type call.arguments.get? ∧
      (∀ key ∈ call.arguments.names, key ∈ knownNames type) ∧
      d = declared type call.arguments.get?) ∧
    (∀ fault, ofCall call path = .error fault ↔
      (∀ type : RuleType, call.typeName ≠ type.name) ∧
          fault = .unknownRuleType call.typeName path.text ∨
        ∃ (type : RuleType) (key reason : String), call.typeName = type.name ∧
          fault = .badAttribute (blamed call path key) key reason ∧
          (key ∈ knownNames type ∧
              defect? call.arguments.get? (knownNames type) = some (key, reason) ∨
            WellFormed type call.arguments.get? ∧
              call.arguments.names.find? (· ∉ knownNames type) = some key ∧
              reason = "is not recognised")) ∧
    ∀ call' : Call, call.typeName = call'.typeName →
      call.arguments.entries.Perm call'.arguments.entries →
      ofCall call path = ofCall call' path ∨
        ∃ (type : RuleType) (rule key key' : String), call.typeName = type.name ∧
          WellFormed type call.arguments.get? ∧
          call.arguments.names.find? (· ∉ knownNames type) = some key ∧
          call'.arguments.names.find? (· ∉ knownNames type) = some key' ∧
          ofCall call path = .error (.badAttribute rule key "is not recognised") ∧
          ofCall call' path = .error (.badAttribute rule key' "is not recognised") :=
  ⟨fun _ => ofCall_eq_ok_iff, fun _ => ofCall_eq_error_iff,
    fun _ hname h => ofCall_of_perm hname h path⟩

/-- A call with two names that are not known. -/
def bogusCall : Call where
  typeName := "cc_library"
  arguments := ⟨[("bogus", .number 1), ("name", .text "x"), ("args", .list ["-v"])], by decide⟩

/-- The call with its arguments in another order. -/
def turnedCall : Call where
  typeName := "cc_library"
  arguments := ⟨[("args", .list ["-v"]), ("bogus", .number 1), ("name", .text "x")], by decide⟩

/-- Of the two names the first is blamed, in both orders. -/
theorem ofCall_exact_turned :
    bogusCall.arguments.entries.Perm turnedCall.arguments.entries ∧
    ofCall bogusCall ⟨"BUILD"⟩ =
      .error (.badAttribute "BUILD:x" "bogus" "is not recognised") ∧
    ofCall turnedCall ⟨"BUILD"⟩ =
      .error (.badAttribute "BUILD:x" "args" "is not recognised") := by
  obtain ⟨-, hbogus, -⟩ := ofCall_exact bogusCall ⟨"BUILD"⟩
  obtain ⟨-, hturned, -⟩ := ofCall_exact turnedCall ⟨"BUILD"⟩
  have hwell : WellFormed .ccLibrary bogusCall.arguments.get? ∧
      WellFormed .ccLibrary turnedCall.arguments.get? :=
    ⟨defect?_eq_none_iff.1 (by decide +kernel), defect?_eq_none_iff.1 (by decide +kernel)⟩
  exact ⟨by decide,
    (hbogus _).2 (.inr ⟨.ccLibrary, "bogus", _, rfl, rfl,
      .inr ⟨hwell.1, by decide +kernel, rfl⟩⟩),
    (hturned _).2 (.inr ⟨.ccLibrary, "args", _, rfl, rfl,
      .inr ⟨hwell.2, by decide +kernel, rfl⟩⟩)⟩

end Declaration

end Buildwright
