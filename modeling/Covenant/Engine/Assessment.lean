import Covenant.Chain.Gas
import Covenant.Number
import Covenant.Scan.Issue

/-!
Scores for an analysis. The security score starts at a hundred and loses points for each finding by
severity; the overall score weighs it seven to three against the efficiency of the most expensive
function. That a pass did not complete says nothing about a contract and costs nothing.
-/

namespace Covenant

inductive SecurityLevel where
  | critical
  | poor
  | moderate
  | good
  | excellent
deriving DecidableEq, Repr

namespace SecurityLevel

def text : SecurityLevel → String
  | critical => "critical"
  | poor => "poor"
  | moderate => "moderate"
  | good => "good"
  | excellent => "excellent"

def ofScore (score : Nat) : SecurityLevel :=
  if score ≥ 90 then excellent
  else if score ≥ 75 then good
  else if score ≥ 60 then moderate
  else if score ≥ 40 then poor
  else critical

end SecurityLevel

inductive Recommendation where
  | fixHighSeverity
  | addressIssues
  | checkSender
  | reduceGas (function : String) (gas limit : Nat)
  | deploy
deriving DecidableEq, Repr

def Recommendation.text : Recommendation → String
  | fixHighSeverity => "Fix the high severity issues before deployment"
  | addressIssues => "Address the remaining security issues before deployment"
  | checkSender => "Check the sender before changing privileged state"
  | reduceGas function gas limit =>
    s!"Reduce the worst-case gas of {function}, which may use {gas} of the {limit} allowed"
  | deploy => "The contract appears ready for deployment"

structure Assessment where
  securityScore : Nat
  overallScore : Nat
  recommendations : List Recommendation
deriving DecidableEq, Repr

namespace Severity

def penalty : Severity → Nat
  | high => 20
  | medium => 10
  | low => 5

end Severity

namespace Assessment

def passingScore : Nat := 70

def securityThreshold : Nat := 80

def efficiencyThreshold : Nat := 70

def level (assessment : Assessment) : SecurityLevel := .ofScore assessment.securityScore

def passed (assessment : Assessment) : Bool := assessment.securityScore ≥ passingScore

def advice (findings : List Issue) (security : Nat) (gas : Option GasReport) :
    List Recommendation :=
  (if findings.any fun issue => issue.severity == .high then [.fixHighSeverity] else []) ++
  (if security < securityThreshold then [.addressIssues] else []) ++
  (if findings.any fun issue => issue.id == "missing-access-control" then [.checkSender] else []) ++
  match gas with
  | none => []
  | some report =>
    if report.efficiency < efficiencyThreshold then
      match report.mostExpensive? with
      | some (function, used) => [.reduceGas function used report.gasLimit]
      | none => []
    else []

def ofIssues (issues : List Issue) (gas : Option GasReport) : Assessment :=
  let findings := issues.filter fun issue => !issue.isAdvisory
  let security := 100 - total (findings.map fun issue => issue.severity.penalty)
  let efficiency := match gas with
    | some report => report.efficiency
    | none => 100
  let advice := advice findings security gas
  { securityScore := security
    overallScore := (security * 7 + efficiency * 3) / 10
    recommendations := if advice.isEmpty then [.deploy] else advice }

end Assessment

end Covenant
