import CsarCore.Impl.Ycloud.Iam

/-!
# Tokens that are handed out

`Live` is what is asked of each call that returns, `GoodAnswer` what an answer must be for
that.
-/

namespace Csar.Spec.Ycloud

open Impl.Ycloud

abbrev History := List (Act × Obs)

/-- Calls that return without an error have a token with an expiry after they began. -/
def Live : Obs → Prop
  | .returned begun token expiry => token ≠ [] ∧ begun < expiry
  | .returnedStatic _ _ => False
  | .finished callers (.ok (token, expiry)) => token ≠ [] ∧ ∀ begun ∈ callers, begun < expiry
  | _ => True

def ReturnsLive (tr : History) : Prop := ∀ e ∈ tr, Live e.2

/-- No call joins a flight when what it will return has expired. -/
def Prompt (tr : History) : Prop := ∀ e ∈ tr, ∀ expiry, e.2 = .joined (some expiry) → e.1.now < expiry

/-- What becomes of an exchange is in `A`, with its time. -/
def AnswersIn (A : Int → Upstream → Prop) (a : Act) : Prop := ∀ up, a.op = .answer up → A a.now up

/-! ## Answers -/

/-- So many seconds are a positive duration: they are in range, or their product wraps around to one. -/
def Lasts (seconds : Int) : Prop :=
  0 < seconds ∧ seconds ≤ 9223372036 ∨
    ∃ k : Int, k ≠ 0 ∧ k * 2 ^ 64 < seconds * 10 ^ 9 ∧ seconds * 10 ^ 9 < k * 2 ^ 64 + 2 ^ 63

/-- The body, if it decodes, has a token, and either no expiry or one after `t`. -/
def GoodIamToken (t : Int) (body : Bytes) : Prop :=
  ∀ r, Json.unmarshalStruct IamTokenResponse.fields body {} = .ok r →
    r.iamToken ≠ [] ∧ (r.expiresAt = Time.zeroTime ∨ t < r.expiresAt)

/-- The body, if it decodes, has a token and how long it lives. -/
def GoodMetadataToken (body : Bytes) : Prop :=
  ∀ r, Json.unmarshalStruct MetadataTokenResponse.fields body {} = .ok r →
    r.accessToken ≠ [] ∧ Lasts r.expiresIn

/-- An answer at `t` is not one of status 200 that decodes, or brings a token that lives. -/
def GoodAnswer (m : RefreshMode) (t : Int) (up : Upstream) : Prop :=
  ∀ body, up.reply = .answered 200 body →
    match m with
    | .oauthToken => GoodIamToken t body
    | .metadata => GoodMetadataToken body
    | .serviceAccount => up.signErr = none → GoodIamToken t body

end Csar.Spec.Ycloud
