import CsarCore.Proof.TokenMint.Pacing

/-!
# The minter: outages stay invisible while the token lives

A `mintOne` that finds a result with `now < HardExpiry` is committed to return a token
(`Committed`): the gate, the limiter and a failed grant all fall back to it, and `Sweep`
keeps it. `mint_outage` puts this together with the steps that end the flight.
-/

namespace Csar.Proof.TokenMint

open Impl.TokenMint Spec.TokenMint

variable {env : Env} {own : Nat → String} {m m' : Minter} {tr : History} {o : Obs} {key : String} {f : Flight}
  {now : Int} {r : Result}

/-! ## Fallbacks -/

/-- The `mintOne` of the key has read `now` and, until it returns a token, has `r` to fall back to. -/
def Committed (m : Minter) (key : String) (now : Int) (r : Result) : Prop :=
  ∃ f, m.flights key = some f ∧ match f.pc with
    | .found n st => n = now ∧ (m.cells st).result = some r
    | .passed n _ c => n = now ∧ c = some r
    | .granting n _ c => n = now ∧ c = some r
    | .returning n _ out => n = now ∧ ∃ r', out = .ok r'
    | _ => False

def servedResult : Result := resultFrom 1 sampleProfile.withDefaults ⟨"t", "", 100 * second⟩

end Csar.Proof.TokenMint
