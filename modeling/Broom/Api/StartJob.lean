import Broom.Api.Nukes
import Broom.Jobs.Store

/-!
# Starting a job

Requests for scans and clean-ups end alike, once their spec is made: the credentials are
copied, the job is admitted, and its worker is started. The first that fails is the answer.
-/

namespace Broom.Api

open Broom.Engine Broom.Jobs

/-- What a request finds that is about to start a job. -/
structure Starting where
  /-- The session still has credentials. -/
  credentials : Bool
  /-- The answer of the store. -/
  admission : Engine.Spec → Except AdmitError Job
  /-- The worker starts. -/
  worker : Bool

/-- The answer where a job is not admitted. -/
def admitError : AdmitError → ApiError
  | .sessionBusy => ⟨409, "too_many_jobs", AdmitError.sessionBusy.text⟩
  | .serverBusy =>
    ⟨503, "server_busy", AdmitError.serverBusy.text ++ "; try again in a few minutes"⟩

/-- Start a job of a spec. -/
def startJob (s : Starting) (spec : Engine.Spec) : Except ApiError Job :=
  if s.credentials = false then .error ⟨401, "session_expired", "session expired"⟩
  else
    match s.admission spec with
    | .error err => .error (admitError err)
    | .ok job =>
      if s.worker then .ok job else .error ⟨500, "internal", "could not start worker"⟩

/-- A request is refused with one of four statuses. -/
theorem startJob_error {s : Starting} {spec : Engine.Spec} {err : ApiError}
    (h : startJob s spec = .error err) : err.status ∈ [401, 409, 503, 500] := by
  unfold startJob at h
  split at h
  · obtain rfl := Except.error.inj h
    simp
  · split at h
    · rename_i e _
      obtain rfl := Except.error.inj h
      cases e <;> simp [admitError]
    · split at h <;> cases h
      simp

end Broom.Api
