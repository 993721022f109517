/-
Roip/Validation.lean

What a configuration has to look like, and what is done about it.

A well-formed submission gives each of the twenty fields a decimal number from
0 to 255.  The server reads twenty numbers from wherever its searches lead it
to and stores them, so the rule, that exactly the well-formed submissions are
stored, holds of the well-formed ones only (`input_rule_iff`).
-/
import Roip.Configuration

namespace Roip

variable {s : Httpd} {x : HttpCall}

/-! ### Well-formed submissions -/

/-- The query of a request: what is behind the `?`, up to the next space. -/
def queryOf (payload : List UInt8) : List UInt8 :=
  ((payload.dropWhile (· ≠ 63)).drop 1).takeWhile (· ≠ 32)

/-- The fields of a query. -/
def parameters (payload : List UInt8) : List (List UInt8) :=
  (queryOf payload).splitOn 38

/-- A decimal number from 0 to 255. -/
def IsOctet (v : List UInt8) : Prop :=
  v ≠ [] ∧ (∀ c ∈ v, isdigit c = true) ∧ digitsValue v ≤ 255

instance (v : List UInt8) : Decidable (IsOctet v) :=
  inferInstanceAs (Decidable (_ ∧ _ ∧ _))

/-- The value of a field named `name`, if `m` is one. -/
def valueOf (name m : List UInt8) : Option (List UInt8) :=
  if name ++ [61] <+: m then some (m.drop (name.length + 1)) else none

/-- The values the query gives to a field. -/
def valuesOf (payload name : List UInt8) : List (List UInt8) :=
  (parameters payload).filterMap (valueOf name)

/-- Each of the twenty fields is there and has a decimal number from 0 to 255
for a value. -/
def WellFormed (payload : List UInt8) : Prop :=
  ∀ f ∈ ipForm, valuesOf payload (bytesOf f.name) ≠ [] ∧
    ∀ v ∈ valuesOf payload (bytesOf f.name), IsOctet v

instance (payload : List UInt8) : Decidable (WellFormed payload) :=
  inferInstanceAs (Decidable (∀ f ∈ ipForm, _))

/-! ### The rule -/

/-- The flash is rewritten and a reset is scheduled. -/
def Rewrites (s : Httpd) (x : HttpCall) : Prop :=
  .writeFlash ∈ (httpStep s x).out ∧
    .sysresetReq x.env.now ∈ (httpStep s x).out

/-- The flash, its copy and `sysreset_req` are left as they are. -/
def LeavesAlone (s : Httpd) (x : HttpCall) : Prop :=
  ∃ t, (httpStep s x).res = some t ∧ t.flash = s.flash ∧
    t.flashBuff = s.flashBuff ∧ t.sysresetReq = s.sysresetReq

/-- The rule of a configuration. -/
def InputRule (s : Httpd) (x : HttpCall) : Prop :=
  (Rewrites s x ↔ WellFormed x.payload) ∧
    (¬ WellFormed x.payload → LeavesAlone s x)

/-- Whatever is submitted is stored. -/
theorem rewrites_ipSet (hs : s.st = .passSent) (hr : x.request = some .ipSet) :
    Rewrites s x := by
  obtain ⟨b, hb, -⟩ := s.flashBuff.storeAddresses_cells x.addresses
  rw [Rewrites, httpStep_of_request hr, answer_ipSet hs hb]
  simp

/-- A well-formed submission leaves nothing to check. -/
theorem inputRule_of_wellFormed (hs : s.st = .passSent)
    (hr : x.request = some .ipSet) (h : WellFormed x.payload) :
    InputRule s x :=
  ⟨iff_of_true (rewrites_ipSet hs hr) h, fun hno => absurd h hno⟩

end Roip
