import Broom.Api.Handover
import Broom.Engine.Exclusion

/-!
# The signed-in user

The name of the signed-in IAM user is read off the caller's ARN, put into the spec of
every scan and clean-up, written to the worker, and there made into a rule that leaves out
the user of this name. The ARN of any other caller leads to no rule.
-/

namespace Broom.Api

open Broom.Core Broom.Engine Broom.Jobs

/-- The user name in the ARN of an IAM user; empty for other callers. -/
def iamUserNameFromARN (arn : String) : String :=
  match splitN ':' 6 arn.toList with
  | [_, _, service, _, _, res] =>
    if service ≠ "iam".toList then ""
    else if "user/".toList.isPrefixOf res then String.ofList ((res.splitOn '/').getLast?.getD [])
    else ""
  | _ => ""

/-- The identity of a caller, as far as the handlers use it. -/
def callerIdentity (account arn : String) : Identity where
  accountId := account
  iamUserName := iamUserNameFromARN arn

/-- The ARN of an IAM user: the service is `iam`, and the resource is `user`, a path from
slash to slash, and a name without slashes. IAM leaves the region empty. -/
structure IAMUserARN (arn partition region account path name : List Char) : Prop where
  arn_eq : arn = "arn:".toList ++ partition ++ ":iam:".toList ++ region ++ ":".toList ++ account ++
    ":user".toList ++ path ++ name
  partition_ok : ':' ∉ partition
  region_ok : ':' ∉ region
  account_ok : ':' ∉ account
  path_begin : ['/'] <+: path
  path_end : ['/'] <:+ path
  name_ok : '/' ∉ name
  name_ne : name ≠ []

/-! ## Reading the name off -/

/-- Five fields and a resource are what an ARN is cut into. -/
theorem splitN_arn {f₀ f₁ f₂ f₃ f₄ : List Char} (res : List Char) (h₀ : ':' ∉ f₀) (h₁ : ':' ∉ f₁)
    (h₂ : ':' ∉ f₂) (h₃ : ':' ∉ f₃) (h₄ : ':' ∉ f₄) :
    splitN ':' 6 (f₀ ++ ':' :: (f₁ ++ ':' :: (f₂ ++ ':' :: (f₃ ++ ':' :: (f₄ ++ ':' :: res))))) =
      [f₀, f₁, f₂, f₃, f₄, res] := by
  rw [splitN_append 4 _ h₀, splitN_append 3 _ h₁, splitN_append 2 _ h₂, splitN_append 1 _ h₃,
    splitN_append 0 _ h₄, splitN]

/-- Only five fields and a resource are cut into six parts. -/
theorem eq_of_splitN_arn {arn f₀ f₁ f₂ f₃ f₄ res : List Char}
    (h : splitN ':' 6 arn = [f₀, f₁, f₂, f₃, f₄, res]) :
    arn = f₀ ++ ':' :: (f₁ ++ ':' :: (f₂ ++ ':' :: (f₃ ++ ':' :: (f₄ ++ ':' :: res)))) ∧
      ':' ∉ f₀ ∧ ':' ∉ f₁ ∧ ':' ∉ f₃ ∧ ':' ∉ f₄ := by
  obtain ⟨r₀, rfl, h₀, h⟩ := eq_append_of_splitN h
  obtain ⟨r₁, rfl, h₁, h⟩ := eq_append_of_splitN h
  obtain ⟨r₂, rfl, -, h⟩ := eq_append_of_splitN h
  obtain ⟨r₃, rfl, h₃, h⟩ := eq_append_of_splitN h
  obtain ⟨r₄, rfl, h₄, h⟩ := eq_append_of_splitN h
  rw [splitN] at h
  obtain rfl := List.singleton_inj.mp h
  exact ⟨rfl, h₀, h₁, h₃, h₄⟩

/-- The name in the ARN of an IAM user is its last segment. -/
theorem IAMUserARN.name_eq {arn : String} {partition region account path name : List Char}
    (h : IAMUserARN arn.toList partition region account path name) :
    iamUserNameFromARN arn = String.ofList name := by
  obtain ⟨front, hfront⟩ := h.path_end
  obtain ⟨back, hback⟩ := h.path_begin
  have hres : "user".toList ++ path ++ name = ("user".toList ++ front) ++ '/' :: name := by
    rw [← hfront]
    simp
  have huser : "user/".toList.isPrefixOf ("user".toList ++ path ++ name) = true := by
    rw [List.isPrefixOf_iff_prefix, ← hback]
    exact ⟨back ++ name, by simp⟩
  have harn : arn.toList = "arn".toList ++ ':' :: (partition ++ ':' :: ("iam".toList ++ ':' ::
      (region ++ ':' :: (account ++ ':' :: ("user".toList ++ path ++ name))))) := by
    rw [h.arn_eq]
    simp
  rw [iamUserNameFromARN, harn, splitN_arn _ (by decide) h.partition_ok (by decide) h.region_ok
    h.account_ok]
  dsimp only
  rw [if_neg (not_not.mpr rfl), if_pos huser, hres, getLast_splitOn_append _ h.name_ok,
    Option.getD_some]

/-- A name comes only from the ARN of an IAM user. -/
theorem exists_iamUserARN {arn : String} (harn : "arn:".toList <+: arn.toList)
    (h : iamUserNameFromARN arn ≠ "") :
    ∃ partition region account path name,
      IAMUserARN arn.toList partition region account path name := by
  unfold iamUserNameFromARN at h
  split at h
  · rename_i scheme partition service region account res hsplit
    split at h
    · exact absurd rfl h
    · rename_i hservice
      split at h
      · rename_i hres
        obtain ⟨heq, hscheme, hpartition, hregion, haccount⟩ := eq_of_splitN_arn hsplit
        obtain ⟨q, rfl⟩ := List.isPrefixOf_iff_prefix.mp hres
        -- the path ends at the last slash behind `user`
        obtain ⟨x, name, hq, hname⟩ := exists_last_sep (List.mem_cons_self (a := '/') (l := q))
        have hlast : (("user/".toList ++ q).splitOn '/').getLast? = some name := by
          have happend : "user/".toList ++ q = ("user".toList ++ x) ++ '/' :: name := by
            rw [List.append_assoc, ← hq]
            simp
          rw [happend, getLast_splitOn_append _ hname]
        rw [hlast, Option.getD_some] at h
        -- what stands before the first colon is `arn`
        obtain ⟨rest, hrest⟩ := harn
        have hcut := congrArg (cutFirst ':') (hrest.trans heq)
        have hleft : "arn:".toList ++ rest = "arn".toList ++ ':' :: rest := by simp
        rw [hleft, cutFirst_append _ (by decide), cutFirst_append _ hscheme] at hcut
        obtain ⟨rfl, -⟩ := Prod.mk.inj (Option.some.inj hcut)
        refine ⟨partition, region, account, x ++ ['/'], name, ?_, hpartition, hregion, haccount,
          ?_, ⟨x, rfl⟩, hname, ?_⟩
        · have hresource : "user/".toList ++ q = "user".toList ++ (x ++ ['/']) ++ name := by
            rw [List.append_assoc, List.append_assoc, List.singleton_append, ← hq]
            rfl
          rw [heq, not_not.mp hservice, hresource]
          simp
        · cases x with
          | nil => exact ⟨[], rfl⟩
          | cons c x =>
            obtain ⟨rfl, -⟩ := List.cons.inj hq
            exact ⟨x ++ ['/'], rfl⟩
        · rintro rfl
          exact h rfl
      · exact absurd rfl h
  · exact absurd rfl h

/-! ## From the caller to the rule -/

/-- The specs that the handlers make for a caller. -/
inductive MadeFor (quote : String → String) (cat : Catalog) (identity : Identity) :
    Engine.Spec → Prop
  | scan {req : CreateScanRequest} {spec : Engine.Spec}
      (h : req.spec quote cat identity = .ok spec) : MadeFor quote cat identity spec
  | nuke {sessionId : String} {get : String → Option Job} {req : CreateNukeRequest}
      {spec : Engine.Spec} (h : handleCreateNuke sessionId identity get req = .ok spec) :
      MadeFor quote cat identity spec

variable {quote : String → String} {cat : Catalog} {identity : Identity} {spec : Engine.Spec}

/-- A handler's spec carries the caller's name and reaches the worker as it is. -/
theorem MadeFor.crosses (h : MadeFor quote cat identity spec) (fmt : GoFormat) :
    decodeSpec fmt (writeSpec fmt spec) = some spec ∧
      spec.excludeIAMUserName = identity.iamUserName := by
  cases h with
  | scan h =>
    have hmode := (CreateScanRequest.spec_ok h).mode
    refine ⟨decodeSpec_writeSpec (by rw [hmode]; rfl), ?_⟩
    obtain ⟨inputs, -, h⟩ := bind_ok h
    obtain ⟨older, -, h⟩ := bind_ok h
    obtain rfl := Except.ok.inj h
    rfl
  | @nuke _ _ req _ h =>
    obtain ⟨-, scan, -, -, hspec⟩ := handleCreateNuke_ok h
    have hmode := (spec_ok hspec).1
    refine ⟨decodeSpec_writeSpec (by rw [hmode]; rfl), ?_⟩
    unfold CreateNukeRequest.spec at hspec
    cases hchoose : choose scan.found req.selections {} with
    | error e =>
      rw [hchoose] at hspec
      cases hspec
    | ok c =>
      rw [hchoose] at hspec
      obtain rfl := Except.ok.inj hspec
      rfl

/-- In every job of an IAM user the worker's rule leaves out this user and nobody else; for
callers that are no IAM users there is no rule. -/
theorem iam_user_excluded (fmt : GoFormat) (quote : String → String) (cat : Catalog)
    (account arn : String) :
    (∀ partition region acct path name, IAMUserARN arn.toList partition region acct path name →
      iamUserNameFromARN arn = String.ofList name ∧
      ∀ spec, MadeFor quote cat (callerIdentity account arn) spec →
        ∃ received cfg, decodeSpec fmt (writeSpec fmt spec) = some received ∧
          buildConfig received = some cfg ∧
          ∀ u, cfg.excludes u = true ↔ u = String.ofList name) ∧
    ("arn:".toList <+: arn.toList →
      (¬ ∃ partition region acct path name,
        IAMUserARN arn.toList partition region acct path name) →
      ∀ spec, MadeFor quote cat (callerIdentity account arn) spec →
        ∃ received cfg, decodeSpec fmt (writeSpec fmt spec) = some received ∧
          buildConfig received = some cfg ∧ cfg.iamUserNames = []) := by
  constructor
  · intro partition region acct path name h
    refine ⟨h.name_eq, fun spec hspec => ?_⟩
    obtain ⟨hdecode, hname⟩ := hspec.crosses fmt
    have hexclude : spec.excludeIAMUserName = String.ofList name := hname.trans h.name_eq
    have hne : spec.excludeIAMUserName ≠ "" := by
      rw [hexclude]
      intro hnil
      have hnil := congrArg String.toList hnil
      rw [String.toList_ofList] at hnil
      exact h.name_ne hnil
    obtain ⟨cfg, hcfg, hexcludes⟩ := buildConfig_name hne
    exact ⟨spec, cfg, hdecode, hcfg, fun u => hexclude ▸ hexcludes u⟩
  · intro harn hnone spec hspec
    obtain ⟨hdecode, hname⟩ := hspec.crosses fmt
    have hempty : iamUserNameFromARN arn = "" := by
      by_contra hne
      exact hnone (exists_iamUserARN harn hne)
    exact ⟨spec, {}, hdecode, buildConfig_empty (hname.trans hempty), rfl⟩

/-- A name with a dot behind a path with colons, and the root user. -/
theorem iam_user_excluded_examples :
    (∃ received cfg, decodeSpec smallFormat (writeSpec smallFormat
        { topicScanSpec with excludeIAMUserName := "me.admin" }) = some received ∧
      buildConfig received = some cfg ∧ ∀ u, cfg.excludes u = true ↔ u = "me.admin") ∧
    ∃ received cfg, decodeSpec smallFormat (writeSpec smallFormat topicScanSpec) =
        some received ∧ buildConfig received = some cfg ∧ cfg.iamUserNames = [] := by
  constructor
  · have harn : IAMUserARN "arn:aws:iam::1:user/a:b/me.admin".toList "aws".toList [] ['1']
        "/a:b/".toList "me.admin".toList :=
      ⟨by decide, by decide, by decide, by decide, by decide, by decide, by decide, by decide⟩
    have hspec : topicScan.spec (fun s => s) topicCatalog
        (callerIdentity "1" "arn:aws:iam::1:user/a:b/me.admin") =
        .ok { topicScanSpec with excludeIAMUserName := "me.admin" } := rfl
    exact ((iam_user_excluded smallFormat (fun s => s) topicCatalog "1" _).1 _ _ _ _ _ harn).2 _
      (.scan hspec)
  · have hnone : ¬ ∃ partition region acct path name,
        IAMUserARN "arn:aws:iam::1:root".toList partition region acct path name := by
      rintro ⟨partition, region, acct, path, name, h⟩
      have hempty : iamUserNameFromARN "arn:aws:iam::1:root" = String.ofList [] := rfl
      exact h.name_ne (String.ofList_injective (h.name_eq.symm.trans hempty))
    have hspec : topicScan.spec (fun s => s) topicCatalog
        (callerIdentity "1" "arn:aws:iam::1:root") = .ok topicScanSpec := rfl
    exact (iam_user_excluded smallFormat (fun s => s) topicCatalog "1" _).2 (by decide) hnone _
      (.scan hspec)

end Broom.Api
