import Broom.Core.Gather
import Broom.Tools.GoSyntax
import Mathlib.Data.List.Dedup
import Mathlib.Data.List.Sort
import Mathlib.Data.String.Basic

/-!
# The policy generator

From the client interfaces that the resources of a package name, the generator takes the
operations that each resource calls, and from these the actions that a policy must allow. It
walks the package twice, each time in some order of its files.
-/

namespace Broom.Tools

open Broom.Core

/-! ## Operations and actions -/

/-- The prefixes of the actions of the SDK's service packages. -/
def iamPrefix : List (String × String) :=
  [("accessanalyzer", "access-analyzer"), ("acm", "acm"), ("acmpca", "acm-pca"), ("amp", "aps"),
    ("apigateway", "apigateway"), ("apigatewayv2", "apigateway"), ("apprunner", "apprunner"),
    ("autoscaling", "autoscaling"), ("backup", "backup"), ("cloudformation", "cloudformation"),
    ("cloudfront", "cloudfront"), ("cloudtrail", "cloudtrail"), ("cloudwatch", "cloudwatch"),
    ("cloudwatchlogs", "logs"), ("codedeploy", "codedeploy"), ("configservice", "config"),
    ("datapipeline", "datapipeline"), ("datasync", "datasync"), ("dynamodb", "dynamodb"),
    ("ec2", "ec2"), ("ecr", "ecr"), ("ecs", "ecs"), ("efs", "elasticfilesystem"), ("eks", "eks"),
    ("elasticache", "elasticache"), ("elasticbeanstalk", "elasticbeanstalk"),
    ("elasticloadbalancing", "elasticloadbalancing"),
    ("elasticloadbalancingv2", "elasticloadbalancing"), ("eventbridge", "events"),
    ("firehose", "firehose"), ("grafana", "grafana"), ("guardduty", "guardduty"), ("iam", "iam"),
    ("kafka", "kafka"), ("kinesis", "kinesis"), ("kms", "kms"), ("lambda", "lambda"),
    ("macie2", "macie2"), ("mq", "mq"), ("networkfirewall", "network-firewall"),
    ("opensearch", "es"), ("ram", "ram"), ("rds", "rds"), ("redshift", "redshift"),
    ("route53", "route53"), ("s3", "s3"), ("s3control", "s3"), ("sagemaker", "sagemaker"),
    ("scheduler", "scheduler"), ("secretsmanager", "secretsmanager"),
    ("securityhub", "securityhub"), ("servicediscovery", "servicediscovery"), ("ses", "ses"),
    ("sns", "sns"), ("sqs", "sqs"), ("ssm", "ssm"), ("sts", "sts"), ("vpclattice", "vpc-lattice")]

/-- The actions of operations that are named otherwise. -/
def opActions : List (String × List String) :=
  [("s3.ListBuckets", ["s3:ListAllMyBuckets"]), ("s3.HeadBucket", ["s3:ListBucket"]),
    ("s3.ListObjectsV2", ["s3:ListBucket"]), ("s3.ListObjectVersions", ["s3:ListBucketVersions"]),
    ("s3.DeleteObjects", ["s3:DeleteObject", "s3:DeleteObjectVersion"]),
    ("s3.DeleteBucketLifecycle", ["s3:PutLifecycleConfiguration"]),
    ("apigateway.GetRestApis", ["apigateway:GET"]),
    ("apigateway.DeleteRestApi", ["apigateway:DELETE"]),
    ("apigatewayv2.GetApis", ["apigateway:GET"]),
    ("apigatewayv2.DeleteApi", ["apigateway:DELETE"])]

/-- An operation of a service package. -/
structure Method where
  op : String
  service : String
  deriving DecidableEq, Repr

inductive ExtractError
  | noService (iface op : String)
  | notInterface (id iface : String)
  | unknownService (service op : String)
  /-- An error with the file it was met in. -/
  | inFile (file : String) (err : ExtractError)
  deriving DecidableEq, Repr

def actionsFor (m : Method) : Except ExtractError (List String) :=
  match opActions.lookup (m.service ++ "." ++ m.op) with
  | some acts => .ok acts
  | none =>
    match iamPrefix.lookup m.service with
    | some service => .ok [service ++ ":" ++ m.op]
    | none => .error (.unknownService m.service m.op)

/-! ## The first pass -/

/-- The service package of a pointer to an input, or nothing. -/
def serviceOf (t : Node) (imports : PlainMap String String) : String :=
  let t := match t with
    | .star x => x
    | t => t
  match t with
  | .selector x _ => (imports.lookup (typeName x)).getD ""
  | _ => ""

/-- The operation of an element; elements of another shape have none. -/
def InterfaceDecl.operation (d : InterfaceDecl) : InterfaceElem → Except ExtractError (List Method)
  | .method op (_ :: t :: _) =>
    let svc := serviceOf t d.imports
    if svc = "" then .error (.noService d.name op) else .ok [⟨op, svc⟩]
  | .method _ _ | .embedded _ => .ok []

def InterfaceDecl.methods (d : InterfaceDecl) : Except ExtractError (List Method) :=
  gather d.operation d.elems

/-- What the first pass collects. -/
structure Tables where
  consts : PlainMap String String := ∅
  ifaces : PlainMap String (List Method) := ∅

def Tables.add (t : Tables) (s : SpecAt) : Except ExtractError Tables :=
  match s.interface? with
  | some d => d.methods.map fun ms => { t with ifaces := t.ifaces.insert d.name ms }
  | none => .ok { t with consts := enter t.consts s.consts }

def passOne (files : List (String × GoFile)) : Except ExtractError Tables :=
  (specsOf files).foldlM Tables.add {}

/-! ## The second pass -/

def stringValue (consts : PlainMap String String) : Node → String
  | .string value => value
  | .ident name => (consts.lookup name).getD ""
  | _ => ""

/-- The value of the field that names the resource type. -/
def resourceTypeName : Node → Option Node
  | .keyValue k v => if typeName k = "ResourceTypeName" then some v else none
  | _ => none

/-- The client type that a constructor's node names, and the expression for the id. -/
def Node.registers : Node → Option (Node × Option Node)
  | .compositeLit (some (.index (.selector _ sel) i)) elts =>
    if sel = "Resource" then some (i, (elts.filterMap resourceTypeName).getLast?)
    else none
  | .call (.index x i) (arg :: _) =>
    if typeName x = "NewEC2AwsResource" then some (i, some arg) else none
  | _ => none

structure Registration where
  id : String
  iface : String
  deriving DecidableEq, Repr

/-- The registration at a node; the generic helper has no id. -/
def registration (consts : PlainMap String String) (n : Node) : Option Registration :=
  n.registers.bind fun r =>
    let id := (r.2.map (stringValue consts)).getD ""
    if id = "" then none else some ⟨id, typeName r.1⟩

structure ResourceInfo where
  id : String
  file : String
  iface : String
  actions : List String
  dryRunCheck : Bool
  deriving DecidableEq, Repr

/-- The elements of a set in order. -/
def keys (set : List String) : List String := set.dedup.insertionSort (· ≤ ·)

def isNil : Node → Bool
  | .ident name => name = "nil"
  | _ => false

/-- A node that sets the verifier of permissions. -/
def setsVerifier : Node → Bool
  | .keyValue k v => typeName k = "PermissionVerifier" && !isNil v
  | .assign lhs rhs => (lhs.zip rhs).any fun
    | (.selector _ sel, r) => sel = "PermissionVerifier" && !isNil r
    | _ => false
  | _ => false

def setsPermissionVerifier (function : List Node) : Bool := (nodesOf function).any setsVerifier

/-- The entry for a node of a function, if it is a registration. -/
def Tables.entry (t : Tables) (v : NodeAt) : Except ExtractError (List ResourceInfo) :=
  let file := String.ofList (SlashPath.base v.file.toList)
  match registration t.consts v.node with
  | none => .ok []
  | some r =>
    match t.ifaces.lookup r.iface with
    | none => .error (.inFile file (.notInterface r.id r.iface))
    | some ms =>
      match gather actionsFor ms with
      | .error e => .error (.inFile file e)
      | .ok acts =>
        .ok [{ id := r.id, file := file, iface := r.iface, actions := keys acts
               dryRunCheck := setsPermissionVerifier v.function }]

/-- The entries of a package; the passes go through its files in orders of their own. -/
def extract (first second : List (String × GoFile)) : Except ExtractError (List ResourceInfo) := do
  let t ← passOne first
  let infos ← gather t.entry (functionNodes second)
  return infos.insertionSort fun x y => x.id ≤ y.id

/-! ## Packages -/

/-- The string constants that some files declare. -/
def constsOf (files : List (String × GoFile)) : List (String × String) :=
  (specsOf files).flatMap SpecAt.consts

/-- The interfaces that some files declare. -/
def interfacesOf (files : List (String × GoFile)) : List InterfaceDecl :=
  (specsOf files).filterMap SpecAt.interface?

/-- A package: its files, and what the language takes expressions and types for. -/
structure Package where
  files : List (String × GoFile)
  /-- The string that an expression denotes where it stands, if it is a constant one. -/
  value : NodeAt → Node → Option String
  /-- The interface that a type denotes where it stands. -/
  client : NodeAt → Node → Option InterfaceDecl
  /-- The interface that an embedded type of a declaration denotes. -/
  embedded : InterfaceDecl → Node → Option InterfaceDecl

/-- A resource type that is registered, with its client interface. -/
structure Registered where
  id : String
  client : Option InterfaceDecl

namespace Package

variable (pkg : Package)

/-- The resource type that is registered at a node. -/
def registered (v : NodeAt) : Option Registered :=
  v.node.registers.bind fun r =>
    ((r.2.bind (pkg.value v)).filter (· ≠ "")).map (⟨·, pkg.client v r.1⟩)

/-- The registrations of resource types. -/
def registrations : List Registered := (functionNodes pkg.files).filterMap pkg.registered

end Package

/-- A method with an input is an operation of the service package of the input. -/
def InterfaceDecl.HasOwn (d : InterfaceDecl) (m : Method) : Prop :=
  ∃ op p t rest, .method op (p :: t :: rest) ∈ d.elems ∧ m = ⟨op, serviceOf t d.imports⟩

/-- The elements of an interface are methods with an input. -/
def InterfaceDecl.Explicit (d : InterfaceDecl) : Prop :=
  ∀ e ∈ d.elems, ∃ op p t rest, e = .method op (p :: t :: rest)

/-- An action that an interface's own methods take. -/
def InterfaceDecl.Takes (d : InterfaceDecl) (a : String) : Prop :=
  ∃ m acts, d.HasOwn m ∧ actionsFor m = .ok acts ∧ a ∈ acts

/-- The method set of an interface, with what its embedded interfaces add. -/
inductive Package.HasMethod (pkg : Package) : InterfaceDecl → Method → Prop
  | own {d : InterfaceDecl} {m : Method} : d.HasOwn m → HasMethod pkg d m
  | embedded {d d' : InterfaceDecl} {t : Node} {m : Method} : .embedded t ∈ d.elems →
      pkg.embedded d t = some d' → HasMethod pkg d' m → HasMethod pkg d m

/-- In some orders of the files the generator returns these entries. -/
def Package.Extracts (pkg : Package) (infos : List ResourceInfo) : Prop :=
  ∃ first second, first.Perm pkg.files ∧ second.Perm pkg.files ∧ extract first second = .ok infos

/-- Nothing is omitted: if the generator returns, every registered resource type has exactly one
entry, the entry is the same in every order, its actions are those of the method set of the
client, and there was nothing that could not be mapped. -/
structure Package.Complete (pkg : Package) : Prop where
  one : ∀ infos, pkg.Extracts infos → ∀ r ∈ pkg.registrations,
    (infos.filter fun e => e.id = r.id).length = 1
  same : ∀ infos infos', pkg.Extracts infos → pkg.Extracts infos' → ∀ r ∈ pkg.registrations,
    ∀ e ∈ infos, ∀ e' ∈ infos', e.id = r.id → e'.id = r.id → e = e'
  actions : ∀ infos, pkg.Extracts infos → ∀ r ∈ pkg.registrations, ∀ d, r.client = some d →
    ∀ e ∈ infos, e.id = r.id →
      ∀ a, a ∈ e.actions ↔ ∃ m acts, pkg.HasMethod d m ∧ actionsFor m = .ok acts ∧ a ∈ acts
  mapped : ∀ infos, pkg.Extracts infos → ∀ r ∈ pkg.registrations,
    ∃ d, r.client = some d ∧ d.Explicit
  unambiguous : ∀ infos, pkg.Extracts infos → ∀ r ∈ pkg.registrations,
    ∀ r' ∈ pkg.registrations, r.id = r'.id → r.client = r'.client

/-- The constants of some files by their names; the last one of a name counts. -/
def lastConsts (files : List (String × GoFile)) : PlainMap String String :=
  enter ∅ (constsOf files)

/-- The interfaces of some files by their names; the last one of a name counts. -/
def lastInterfaces (files : List (String × GoFile)) : PlainMap String InterfaceDecl :=
  enter ∅ ((interfacesOf files).map fun d => (d.name, d))

/-- The registrations that can be read, each with its place. -/
def readable (files : List (String × GoFile)) : List (NodeAt × Registration) :=
  (functionNodes files).filterMap fun v =>
    (registration (lastConsts files) v.node).map fun r => (v, r)

/-- The generator fails: some operation's service cannot be told, some resource uses what is
no interface of the files, or an operation of a service that is not known. -/
inductive Rejected (files : List (String × GoFile)) : Prop
  | noService {d : InterfaceDecl} {m : Method} : d ∈ interfacesOf files → d.HasOwn m →
      m.service = "" → Rejected files
  | notInterface {p : NodeAt × Registration} : p ∈ readable files →
      (∀ d ∈ interfacesOf files, d.name ≠ p.2.iface) → Rejected files
  | unknownService {p : NodeAt × Registration} {d : InterfaceDecl} {m : Method}
      {e : ExtractError} : p ∈ readable files → (lastInterfaces files).lookup p.2.iface = some d →
      d.HasOwn m → actionsFor m = .error e → Rejected files

/-- What an entry tells of the place of its registration. -/
structure Place where
  file : String
  iface : String
  dryRunCheck : Bool

def place (p : NodeAt × Registration) : Place where
  file := String.ofList (SlashPath.base p.1.file.toList)
  iface := p.2.iface
  dryRunCheck := setsPermissionVerifier p.1.function

/-- Every resource type is registered with one interface, all of whose elements are methods
with an input. In every order of the files that is not rejected its id is read at one place,
that of the other orders or one like it, and the last interface under the name there takes the
actions of the client. -/
structure Package.Mappable (pkg : Package) : Prop where
  explicit : ∀ r ∈ pkg.registrations, ∃ d, r.client = some d ∧ d.Explicit
  unambiguous : ∀ r ∈ pkg.registrations, ∀ r' ∈ pkg.registrations, r.id = r'.id →
    r.client = r'.client
  once : ∀ r ∈ pkg.registrations, ∃ q, ∀ files, files.Perm pkg.files → ¬ Rejected files →
    ((readable files).filter fun p => p.2.id = r.id).map place = [q]
  stands : ∀ r ∈ pkg.registrations, ∀ d, r.client = some d →
    ∀ files, files.Perm pkg.files → ¬ Rejected files → ∀ p ∈ readable files, p.2.id = r.id →
      ∀ d', (lastInterfaces files).lookup p.2.iface = some d' → ∀ a, d'.Takes a ↔ d.Takes a

/-! ## Interfaces -/

variable {d : InterfaceDecl}

/-- An interface is mapped if each of its operations has a service. -/
theorem operation_ok_iff : (∀ e ∈ d.elems, ∃ ms, d.operation e = .ok ms) ↔
    ∀ m, d.HasOwn m → m.service ≠ "" := by
  constructor
  · rintro h m ⟨op, p, t, rest, hmem, rfl⟩ hservice
    obtain ⟨ms, hms⟩ := h _ hmem
    rw [InterfaceDecl.operation, if_pos hservice] at hms
    cases hms
  · intro h e he
    unfold InterfaceDecl.operation
    split
    · rename_i op p t rest
      exact ⟨_, if_neg (h ⟨op, serviceOf t d.imports⟩ ⟨op, p, t, rest, he, rfl⟩)⟩
    · exact ⟨[], rfl⟩
    · exact ⟨[], rfl⟩

/-- The mapped operations of an interface. -/
theorem mem_methods_iff {ms : List Method} (h : d.methods = .ok ms) (m : Method) :
    m ∈ ms ↔ d.HasOwn m := by
  obtain ⟨hok, rfl⟩ := gather_ok_iff.mp h
  rw [List.mem_flatMap]
  constructor
  · rintro ⟨e, he, hm⟩
    obtain ⟨ms, hms⟩ := hok e he
    rw [yields, hms] at hm
    unfold InterfaceDecl.operation at hms
    split at hms
    · rename_i op p t rest
      dsimp only at hms
      split at hms
      · cases hms
      · obtain rfl := Except.ok.inj hms
        exact ⟨op, p, t, rest, he, List.mem_singleton.mp hm⟩
    · obtain rfl := Except.ok.inj hms
      cases hm
    · obtain rfl := Except.ok.inj hms
      cases hm
  · rintro ⟨op, p, t, rest, he, rfl⟩
    refine ⟨_, he, ?_⟩
    obtain ⟨ms, hms⟩ := hok _ he
    rw [yields, hms]
    rw [InterfaceDecl.operation] at hms
    split at hms
    · cases hms
    · obtain rfl := Except.ok.inj hms
      exact List.mem_singleton_self _

/-! ## The first pass -/

/-- An interface under the methods that are mapped. -/
def InterfaceDecl.pair (d : InterfaceDecl) : String × List Method :=
  (d.name, (d.methods.toOption).getD [])

/-- What the first pass collects if nothing fails. -/
def tablesOf (files : List (String × GoFile)) : Tables where
  consts := lastConsts files
  ifaces := enter ∅ ((interfacesOf files).map InterfaceDecl.pair)

theorem consts_of_interface? {sp : SpecAt} (h : sp.interface? = some d) : sp.consts = [] := by
  obtain ⟨imports, isConst, spec⟩ := sp
  cases spec with
  | value | other => cases h
  | interface name elems => cases isConst <;> rfl

theorem foldlM_add {l : List SpecAt} (t : Tables)
    (h : ∀ d ∈ l.filterMap SpecAt.interface?, ∃ ms, d.methods = .ok ms) :
    l.foldlM Tables.add t = .ok
      { consts := enter t.consts (l.flatMap SpecAt.consts)
        ifaces := enter t.ifaces ((l.filterMap SpecAt.interface?).map InterfaceDecl.pair) } := by
  induction l generalizing t with
  | nil => rfl
  | cons sp l ih =>
    rw [List.foldlM_cons, Tables.add, List.flatMap_cons]
    cases hsp : sp.interface? with
    | none =>
      rw [List.filterMap_cons_none hsp] at h ⊢
      refine (ih { t with consts := enter t.consts sp.consts } h).trans ?_
      simp only [enter, List.foldl_append]
    | some d =>
      rw [List.filterMap_cons_some hsp] at h ⊢
      obtain ⟨ms, hms⟩ := h d (List.mem_cons_self ..)
      have hpair : d.pair = (d.name, ms) := by rw [InterfaceDecl.pair, hms]; rfl
      dsimp only
      rw [consts_of_interface? hsp, hms, List.nil_append, List.map_cons, hpair]
      exact ih { t with ifaces := t.ifaces.insert d.name ms } fun d' hd' =>
        h d' (List.mem_cons_of_mem _ hd')

theorem ok_of_foldlM_add {l : List SpecAt} {t t' : Tables}
    (h : l.foldlM Tables.add t = .ok t') :
    ∀ d ∈ l.filterMap SpecAt.interface?, ∃ ms, d.methods = .ok ms := by
  induction l generalizing t with
  | nil => nofun
  | cons sp l ih =>
    rw [List.foldlM_cons, Tables.add] at h
    cases hsp : sp.interface? with
    | none =>
      rw [hsp] at h
      rw [List.filterMap_cons_none hsp]
      exact ih h
    | some d =>
      rw [hsp] at h
      rw [List.filterMap_cons_some hsp]
      cases hms : d.methods with
      | error e =>
        dsimp only at h
        rw [hms] at h
        cases h
      | ok ms =>
        dsimp only at h
        rw [hms] at h
        intro d' hd'
        rcases List.mem_cons.mp hd' with rfl | hd'
        · exact ⟨ms, hms⟩
        · exact ih h d' hd'

/-- The first pass returns if every interface can be mapped. -/
theorem passOne_ok_iff {files : List (String × GoFile)} {t : Tables} :
    passOne files = .ok t ↔
      (∀ d ∈ interfacesOf files, ∃ ms, d.methods = .ok ms) ∧ t = tablesOf files := by
  constructor
  · intro h
    have hok := ok_of_foldlM_add h
    rw [passOne, foldlM_add _ hok] at h
    exact ⟨hok, (Except.ok.inj h).symm⟩
  · rintro ⟨hok, rfl⟩
    exact foldlM_add _ hok

/-- The methods under a name are those of the last interface that is declared under it. -/
theorem lookup_ifaces_iff {files : List (String × GoFile)} {name : String} {ms : List Method} :
    (tablesOf files).ifaces.lookup name = some ms ↔
      ∃ d, (lastInterfaces files).lookup name = some d ∧ d.pair.2 = ms := by
  have hpairs : (interfacesOf files).map InterfaceDecl.pair =
      ((interfacesOf files).map fun d => (d.name, d)).map fun p => (p.1, p.2.pair.2) := by
    rw [List.map_map]
    rfl
  rw [tablesOf, hpairs, lookup_enter_map (fun d : InterfaceDecl => d.pair.2),
    Option.map_eq_some_iff]
  rfl

/-- The last interface under a name is one of the files' and has the name. -/
theorem mem_of_lookup_lastInterfaces {files : List (String × GoFile)} {name : String}
    (h : (lastInterfaces files).lookup name = some d) :
    d ∈ interfacesOf files ∧ d.name = name := by
  obtain ⟨d', hd', heq⟩ := List.mem_map.mp (mem_of_lookup_enter h)
  obtain ⟨rfl, rfl⟩ := Prod.mk.inj heq
  exact ⟨hd', rfl⟩

theorem lookup_lastInterfaces_eq_none {files : List (String × GoFile)} {name : String} :
    (lastInterfaces files).lookup name = none ↔ ∀ d ∈ interfacesOf files, d.name ≠ name := by
  have hkeys : ((interfacesOf files).map fun d => (d.name, d)).map Prod.fst =
      (interfacesOf files).map InterfaceDecl.name := by
    rw [List.map_map]
    rfl
  rw [← Option.not_isSome_iff_eq_none, lastInterfaces, isSome_lookup_enter, hkeys, List.mem_map]
  push Not
  rfl

theorem methods_ok_iff : (∃ ms, d.methods = .ok ms) ↔ ∀ m, d.HasOwn m → m.service ≠ "" := by
  rw [← operation_ok_iff]
  exact ⟨fun ⟨ms, hms⟩ => ok_of_gather hms, fun h => ⟨_, gather_eq h⟩⟩

/-! ## Entries -/

/-- The entry of a registration with some actions. -/
def NodeAt.info (v : NodeAt) (r : Registration) (acts : List String) : ResourceInfo where
  id := r.id
  file := String.ofList (SlashPath.base v.file.toList)
  iface := r.iface
  actions := keys acts
  dryRunCheck := setsPermissionVerifier v.function

theorem entry_ok_iff {t : Tables} {v : NodeAt} {es : List ResourceInfo} :
    t.entry v = .ok es ↔ registration t.consts v.node = none ∧ es = [] ∨
      ∃ r ms acts, registration t.consts v.node = some r ∧ t.ifaces.lookup r.iface = some ms ∧
        gather actionsFor ms = .ok acts ∧ es = [v.info r acts] := by
  unfold Tables.entry
  cases hreg : registration t.consts v.node with
  | none => simp [eq_comm]
  | some r =>
    cases hlookup : t.ifaces.lookup r.iface with
    | none => simp [hlookup]
    | some ms =>
      cases hacts : gather actionsFor ms with
      | error e => simp [hlookup, hacts]
      | ok acts => simp [hlookup, hacts, NodeAt.info, eq_comm]

/-- The actions that are found under a name. -/
def Tables.actions (t : Tables) (name : String) : List String :=
  ((t.ifaces.lookup name).getD []).flatMap (yields actionsFor)

/-- The entries of nodes that do not fail are those of the registrations, one each. -/
theorem flatMap_entry {t : Tables} {l : List NodeAt} (h : ∀ v ∈ l, ∃ es, t.entry v = .ok es) :
    l.flatMap (yields t.entry) =
      (l.filterMap fun v => (registration t.consts v.node).map fun r => (v, r)).map
        fun p => p.1.info p.2 (t.actions p.2.iface) := by
  induction l with
  | nil => rfl
  | cons v l ih =>
    obtain ⟨es, hes⟩ := h v (List.mem_cons_self ..)
    have hyield : yields t.entry v = es := by rw [yields, hes]; rfl
    rw [List.flatMap_cons, hyield, ih fun v' hv' => h v' (List.mem_cons_of_mem _ hv')]
    rcases entry_ok_iff.mp hes with ⟨hreg, rfl⟩ | ⟨r, ms, acts, hreg, hlookup, hacts, rfl⟩
    · simp [hreg]
    · obtain ⟨-, rfl⟩ := gather_ok_iff.mp hacts
      simp [hreg, Tables.actions, hlookup]

/-- The generator returns if every interface and every registration can be mapped. -/
theorem extract_ok_iff {first second : List (String × GoFile)} {infos : List ResourceInfo} :
    extract first second = .ok infos ↔
      ((∀ d ∈ interfacesOf first, ∃ ms, d.methods = .ok ms) ∧
        ∀ v ∈ functionNodes second, ∃ es, (tablesOf first).entry v = .ok es) ∧
      infos = ((functionNodes second).flatMap (yields (tablesOf first).entry)).insertionSort
        fun x y => x.id ≤ y.id := by
  rw [extract]
  constructor
  · intro h
    cases ht : passOne first with
    | error e =>
      rw [ht] at h
      cases h
    | ok t =>
      obtain ⟨hmethods, rfl⟩ := passOne_ok_iff.mp ht
      rw [ht] at h
      cases hinfos : gather (tablesOf first).entry (functionNodes second) with
      | error e => simp [hinfos, bind, Except.bind] at h
      | ok infos' =>
        obtain ⟨hok, rfl⟩ := gather_ok_iff.mp hinfos
        simp only [bind, Except.bind, hinfos] at h
        exact ⟨⟨hmethods, hok⟩, (Except.ok.inj h).symm⟩
  · rintro ⟨⟨hmethods, hok⟩, rfl⟩
    rw [passOne_ok_iff.mpr ⟨hmethods, rfl⟩]
    simp only [bind, Except.bind, gather_eq hok]
    rfl

/-! ## What is rejected -/

variable {files : List (String × GoFile)} {p : NodeAt × Registration}

/-- Every interface and every registration of the files can be mapped. -/
structure Accepted (files : List (String × GoFile)) : Prop where
  methods : ∀ d ∈ interfacesOf files, ∃ ms, d.methods = .ok ms
  entries : ∀ v ∈ functionNodes files, ∃ es, (tablesOf files).entry v = .ok es

theorem mem_readable_iff : p ∈ readable files ↔
    p.1 ∈ functionNodes files ∧ registration (lastConsts files) p.1.node = some p.2 := by
  obtain ⟨v, r⟩ := p
  simp only [readable, List.mem_filterMap, Option.map_eq_some_iff, Prod.mk.injEq]
  constructor
  · rintro ⟨v, hv, r, hr, rfl, rfl⟩
    exact ⟨hv, hr⟩
  · rintro ⟨hv, hr⟩
    exact ⟨v, hv, r, hr, rfl, rfl⟩

/-- A registration that is mapped names an interface whose operations have actions. -/
theorem Accepted.interface (h : Accepted files) (hp : p ∈ readable files) :
    ∃ d, (lastInterfaces files).lookup p.2.iface = some d ∧
      ∀ m, d.HasOwn m → ∃ acts, actionsFor m = .ok acts := by
  obtain ⟨hv, hreg⟩ := mem_readable_iff.mp hp
  obtain ⟨es, hes⟩ := h.entries p.1 hv
  rcases entry_ok_iff.mp hes with ⟨hnone, -⟩ | ⟨r', ms, acts, hreg', hlookup, hacts, -⟩
  · cases hnone.symm.trans hreg
  · obtain rfl : p.2 = r' := Option.some.inj (hreg.symm.trans hreg')
    obtain ⟨d, hd, hpair⟩ := lookup_ifaces_iff.mp hlookup
    obtain ⟨ms', hms'⟩ := h.methods d (mem_of_lookup_lastInterfaces hd).1
    obtain rfl : ms' = ms := by rw [← hpair, InterfaceDecl.pair, hms']; rfl
    exact ⟨d, hd, fun m hm => ok_of_gather hacts m ((mem_methods_iff hms' m).mpr hm)⟩

/-- Files are rejected for one of three reasons. -/
theorem accepted_iff_not_rejected : Accepted files ↔ ¬ Rejected files := by
  constructor
  · rintro h (⟨hd, hown, hservice⟩ | ⟨hp, hnot⟩ | ⟨hp, hd, hown, hacts⟩)
    · exact methods_ok_iff.mp (h.methods _ hd) _ hown hservice
    · obtain ⟨d, hd, -⟩ := h.interface hp
      obtain ⟨hmem, hname⟩ := mem_of_lookup_lastInterfaces hd
      exact hnot d hmem hname
    · obtain ⟨d', hd', hok⟩ := h.interface hp
      obtain rfl := Option.some.inj (hd.symm.trans hd')
      obtain ⟨acts, hok⟩ := hok _ hown
      cases hok.symm.trans hacts
  · intro h
    have hmethods : ∀ d ∈ interfacesOf files, ∃ ms, d.methods = .ok ms := fun d hd =>
      methods_ok_iff.mpr fun m hown hservice => h (.noService hd hown hservice)
    refine ⟨hmethods, fun v hv => ?_⟩
    cases hreg : registration (lastConsts files) v.node with
    | none => exact ⟨[], entry_ok_iff.mpr (.inl ⟨hreg, rfl⟩)⟩
    | some r =>
      have hp : (v, r) ∈ readable files := mem_readable_iff.mpr ⟨hv, hreg⟩
      cases hd : (lastInterfaces files).lookup r.iface with
      | none => exact absurd (.notInterface hp (lookup_lastInterfaces_eq_none.mp hd)) h
      | some d =>
        obtain ⟨ms, hms⟩ := hmethods d (mem_of_lookup_lastInterfaces hd).1
        have hpair : d.pair.2 = ms := by rw [InterfaceDecl.pair, hms]; rfl
        have hacts : ∀ m ∈ ms, ∃ acts, actionsFor m = .ok acts := fun m hm => by
          cases hacts : actionsFor m with
          | ok acts => exact ⟨acts, rfl⟩
          | error e =>
            exact absurd (.unknownService hp hd ((mem_methods_iff hms m).mp hm) hacts) h
        exact ⟨_, entry_ok_iff.mpr (.inr ⟨r, ms, _, hreg, lookup_ifaces_iff.mpr ⟨d, hd, hpair⟩,
          gather_eq hacts, rfl⟩)⟩

/-! ## What is returned -/

variable {first second : List (String × GoFile)} {infos infos' : List ResourceInfo}

theorem functionNodes_perm {l l' : List (String × GoFile)} (h : l.Perm l') :
    (functionNodes l).Perm (functionNodes l') := h.flatMap_right _

/-- The entry of a registration that is read in the files. -/
def readInfo (files : List (String × GoFile)) (p : NodeAt × Registration) : ResourceInfo :=
  p.1.info p.2 ((tablesOf files).actions p.2.iface)

/-- The generator returns if the order of its first pass is accepted: an entry for each
registration that is read, in the order of their ids. -/
theorem returned_of_extract (hperm : first.Perm second) (h : extract first second = .ok infos) :
    Accepted first ∧ infos.Perm ((readable first).map (readInfo first)) ∧
      infos.Pairwise fun x y => x.id ≤ y.id := by
  obtain ⟨⟨hmethods, hentries⟩, rfl⟩ := extract_ok_iff.mp h
  have hnodes := functionNodes_perm hperm
  have haccepted : Accepted first := ⟨hmethods, fun v hv => hentries v (hnodes.mem_iff.mp hv)⟩
  refine ⟨haccepted, ?_, List.pairwise_insertionSort _ _⟩
  refine (List.perm_insertionSort _ _).trans ((hnodes.symm.flatMap_right _).trans (.of_eq ?_))
  exact flatMap_entry haccepted.entries

/-- The elements of a set stay the same in order. -/
theorem mem_keys_iff {a : String} {set : List String} : a ∈ keys set ↔ a ∈ set := by
  rw [keys, (List.perm_insertionSort _ _).mem_iff, List.mem_dedup]

/-- The order of a set's elements does not depend on how they were put in. -/
theorem keys_congr {set set' : List String} (h : ∀ a, a ∈ set ↔ a ∈ set') :
    keys set = keys set' := by
  have hdedup : set.dedup.Perm set'.dedup :=
    (List.perm_ext_iff_of_nodup (List.nodup_dedup _) (List.nodup_dedup _)).mpr fun a => by
      rw [List.mem_dedup, List.mem_dedup, h]
  have hperm : (keys set).Perm (keys set') := (List.perm_insertionSort _ _).trans
    (hdedup.trans (List.perm_insertionSort _ _).symm)
  exact hperm.eq_of_pairwise (fun a b _ _ hab hba => le_antisymm hab hba)
    (List.pairwise_insertionSort _ _) (List.pairwise_insertionSort _ _)

/-- An entry has the actions of the operations of the interface under its client's name. -/
theorem mem_actions_readInfo (h : Accepted files) (hd : (lastInterfaces files).lookup p.2.iface =
    some d) (hp : p ∈ readable files) {a : String} :
    a ∈ (tablesOf files).actions p.2.iface ↔ d.Takes a := by
  obtain ⟨ms, hms⟩ := h.methods d (mem_of_lookup_lastInterfaces hd).1
  have hpair : d.pair.2 = ms := by rw [InterfaceDecl.pair, hms]; rfl
  obtain ⟨d', hd', hok⟩ := h.interface hp
  obtain rfl := Option.some.inj (hd.symm.trans hd')
  rw [Tables.actions, lookup_ifaces_iff.mpr ⟨d, hd, hpair⟩, Option.getD_some, List.mem_flatMap]
  constructor
  · rintro ⟨m, hm, ha⟩
    have hown := (mem_methods_iff hms m).mp hm
    obtain ⟨acts, hacts⟩ := hok m hown
    rw [yields, hacts] at ha
    exact ⟨m, acts, hown, hacts, ha⟩
  · rintro ⟨m, acts, hown, hacts, ha⟩
    refine ⟨m, (mem_methods_iff hms m).mpr hown, ?_⟩
    rw [yields, hacts]
    exact ha

/-- The entries of one id are those of the registrations that are read with the id. -/
theorem filter_id_perm (h : infos.Perm ((readable first).map (readInfo first))) (id : String) :
    (infos.filter fun e => e.id = id).Perm
      (((readable first).filter fun p => p.2.id = id).map (readInfo first)) := by
  refine (h.filter _).trans (.of_eq ?_)
  rw [List.filter_map]
  rfl

/-! ## Completeness -/

variable {pkg : Package}

/-- The method set of an interface without embedded ones is its own methods. -/
theorem hasMethod_iff_of_explicit (hexplicit : d.Explicit) (m : Method) :
    pkg.HasMethod d m ↔ d.HasOwn m := by
  refine ⟨fun h => ?_, .own⟩
  cases h with
  | own hown => exact hown
  | embedded hmem _ _ =>
    obtain ⟨op, p, t, rest, he⟩ := hexplicit _ hmem
    cases he

/-- Returned entries come from an order of the files that is accepted. -/
theorem returned_of_extracts (h : pkg.Extracts infos) : ∃ files, files.Perm pkg.files ∧
    Accepted files ∧ infos.Perm ((readable files).map (readInfo files)) ∧
      infos.Pairwise fun x y => x.id ≤ y.id := by
  obtain ⟨first, second, hfirst, hsecond, h⟩ := h
  exact ⟨first, hfirst, returned_of_extract (hfirst.trans hsecond.symm) h⟩

/-- An entry is the same if it tells of the same place and takes the same actions. -/
theorem readInfo_congr {p' : NodeAt × Registration} (hid : p.2.id = p'.2.id)
    (hplace : place p = place p') (hactions : ∀ a, a ∈ (tablesOf first).actions p.2.iface ↔
      a ∈ (tablesOf second).actions p'.2.iface) : readInfo first p = readInfo second p' := by
  obtain ⟨hfile, hiface, hdry⟩ := Place.mk.inj hplace
  rw [readInfo, readInfo, NodeAt.info, NodeAt.info, keys_congr hactions, hid, hfile, hiface, hdry]

namespace Package.Mappable

variable {reg : Registered}

/-- The actions of the entry for a registered id are those of its client. -/
theorem mem_actions_iff (h : pkg.Mappable) (hreg : reg ∈ pkg.registrations)
    (hclient : reg.client = some d) (hfiles : files.Perm pkg.files) (haccepted : Accepted files)
    (hp : p ∈ readable files) (hid : p.2.id = reg.id) {a : String} :
    a ∈ (tablesOf files).actions p.2.iface ↔ d.Takes a := by
  obtain ⟨d', hd', -⟩ := haccepted.interface hp
  rw [mem_actions_readInfo haccepted hd' hp]
  exact h.stands reg hreg d hclient files hfiles (accepted_iff_not_rejected.mp haccepted) p hp hid
    d' hd' a

theorem complete (h : pkg.Mappable) : pkg.Complete := by
  constructor
  case one =>
    intro infos hinfos r hr
    obtain ⟨files, hfiles, haccepted, hperm, -⟩ := returned_of_extracts hinfos
    obtain ⟨q, hq⟩ := h.once r hr
    have hlength := congrArg List.length
      (hq files hfiles (accepted_iff_not_rejected.mp haccepted))
    rw [(filter_id_perm hperm r.id).length_eq, List.length_map]
    rwa [List.length_map] at hlength
  case same =>
    intro infos infos' hinfos hinfos' r hr e he e' he' hid hid'
    obtain ⟨files, hfiles, haccepted, hperm, -⟩ := returned_of_extracts hinfos
    obtain ⟨files', hfiles', haccepted', hperm', -⟩ := returned_of_extracts hinfos'
    obtain ⟨p, hp, rfl⟩ := List.mem_map.mp (hperm.mem_iff.mp he)
    obtain ⟨p', hp', rfl⟩ := List.mem_map.mp (hperm'.mem_iff.mp he')
    obtain ⟨q, hq⟩ := h.once r hr
    obtain ⟨d, hd, -⟩ := h.explicit r hr
    have hplace {files : List (String × GoFile)} (hfiles : files.Perm pkg.files)
        (haccepted : Accepted files) {p : NodeAt × Registration} (hp : p ∈ readable files)
        (hid : p.2.id = r.id) : place p = q := by
      have hmem : p ∈ (readable files).filter fun p => p.2.id = r.id :=
        List.mem_filter.mpr ⟨hp, decide_eq_true hid⟩
      have hplaces := List.mem_map_of_mem (f := place) hmem
      rw [hq files hfiles (accepted_iff_not_rejected.mp haccepted)] at hplaces
      exact List.mem_singleton.mp hplaces
    refine readInfo_congr (hid.trans hid'.symm)
      ((hplace hfiles haccepted hp hid).trans (hplace hfiles' haccepted' hp' hid').symm) fun a => ?_
    rw [h.mem_actions_iff hr hd hfiles haccepted hp hid,
      h.mem_actions_iff hr hd hfiles' haccepted' hp' hid']
  case actions =>
    intro infos hinfos r hr d hd e he hid a
    obtain ⟨files, hfiles, haccepted, hperm, -⟩ := returned_of_extracts hinfos
    obtain ⟨p, hp, rfl⟩ := List.mem_map.mp (hperm.mem_iff.mp he)
    obtain ⟨d', hd', hexplicit⟩ := h.explicit r hr
    obtain rfl := Option.some.inj (hd.symm.trans hd')
    simp only [hasMethod_iff_of_explicit hexplicit]
    exact mem_keys_iff.trans (h.mem_actions_iff hr hd hfiles haccepted hp hid)
  case mapped => exact fun infos _ => h.explicit
  case unambiguous => exact fun infos _ => h.unambiguous

end Package.Mappable

/-- A type means the interface of its name, where names are declared once and not hidden. -/
def interfaceNamed (files : List (String × GoFile)) (t : Node) : Option InterfaceDecl :=
  (interfacesOf files).find? fun d => d.name = typeName t

/-- Where no constants are declared only literals have values. -/
def literal : Node → Option String
  | .string text => some text
  | _ => none

end Broom.Tools
