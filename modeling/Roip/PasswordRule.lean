/-
Roip/PasswordRule.lean

Which password changes are carried out.

A change asks for the old password and for the new one twice.  The old one is
read into its buffer and not looked at again, and of the confirmation only as
many bytes are compared as the new password has.  So the rule, that the
password is replaced if and only if the old one is right and the new one is
confirmed, holds of a change unless the new password begins its confirmation
(`password_rule_iff`).
-/
import Roip.PasswordChange

namespace Roip

variable {s t : Httpd} {x : HttpCall} {old new confirm z : List UInt8}

/-! ### The rule -/

/-- The password in the flash, as a string. -/
def HttpCall.storedPassword (x : HttpCall) (s : Httpd) : List UInt8 :=
  cstr (s.flash.password ++ x.env.behindBuff)

/-- The call has put the password `new` in place of the old one, and has
answered so. -/
structure Replaced (s : Httpd) (x : HttpCall) (new : List UInt8) (t : Httpd) :
    Prop where
  buff : cstr t.flashBuff.password = new
  written : .writeFlash ∈ (httpStep s x).out
  flash : x.env.iap.erase = 0 → x.env.iap.copy = 0 → t.flash = t.flashBuff
  page : .write x.pcb .changedPassword ∈ (httpStep s x).out

/-- The call has changed nothing, and has answered with the failure page. -/
structure Kept (s : Httpd) (x : HttpCall) (t : Httpd) : Prop where
  buff : t.flashBuff = s.flashBuff
  flash : t.flash = s.flash
  page : .write x.pcb .changePasswordUnsuccessful ∈ (httpStep s x).out

/-- The old password is the one in the flash, and the new one is confirmed. -/
def Entitled (s : Httpd) (x : HttpCall) (old new confirm : List UInt8) : Prop :=
  old = x.storedPassword s ∧ new = confirm

/-- The rule of a password change. -/
def PasswordRule (s : Httpd) (x : HttpCall) (old new confirm : List UInt8) :
    Prop :=
  ∃ t, (httpStep s x).res = some t ∧
    (Replaced s x new t ↔ Entitled s x old new confirm) ∧
    (¬ Entitled s x old new confirm → Kept s x t)

/-! ### What the server does -/

/-- A new password that begins its confirmation is accepted. -/
theorem replaced_of_prefix (ho : Plain old) (hn : Plain new)
    (hc : Plain confirm) (hs : s.st = .passSent)
    (hx : x.p = some (changeRequest old new confirm z))
    (hpre : new <+: confirm) :
    ∃ t, (httpStep s x).res = some t ∧ Replaced s x new t ∧ ¬ Kept s x t := by
  obtain ⟨b, hcells, hstep⟩ := step_changeRequest ho hn hc hs hx hpre
  obtain ⟨-, -, hpassword⟩ := FlashImage.layout_of_storePassword hcells
  refine ⟨_, congrArg Traced.res hstep, ?_, ?_⟩
  · constructor
    · show cstr b.password = new
      rw [hpassword, cstr_append_zero hn.no_zero]
    · rw [hstep]
      exact List.mem_cons_of_mem _ List.mem_cons_self
    · intro he hcopy
      exact writeFlash_success he hcopy b s.flash
    · rw [hstep]
      simp [closing]
  · intro hk
    have hpage := hk.page
    rw [hstep] at hpage
    simp [closing] at hpage

/-- Any other new password is rejected. -/
theorem kept_of_not_prefix (ho : Plain old) (hn : Plain new)
    (hc : Plain confirm) (hs : s.st = .passSent)
    (hx : x.p = some (changeRequest old new confirm z))
    (hpre : ¬ new <+: confirm) :
    ∃ t, (httpStep s x).res = some t ∧ ¬ Replaced s x new t ∧ Kept s x t := by
  have hstep := step_changeRequest_rejected ho hn hc hs hx hpre
  refine ⟨_, congrArg Traced.res hstep, ?_, rfl, rfl, ?_⟩
  · intro hr
    have hwritten := hr.written
    rw [hstep] at hwritten
    simp [closing] at hwritten
  · rw [hstep]
    simp [closing]

/-- **When the rule holds.**  In the state `PASS_SENT` a change obeys the rule
if and only if the new password does not begin its confirmation, or the change
is one the rule asks for. -/
theorem password_rule_iff {s : Httpd} {x : HttpCall}
    {old new confirm z : List UInt8} (ho : Plain old) (hn : Plain new)
    (hc : Plain confirm) (hs : s.st = .passSent)
    (hx : x.p = some (changeRequest old new confirm z)) :
    PasswordRule s x old new confirm ↔
      (new <+: confirm → old = x.storedPassword s ∧ new = confirm) := by
  by_cases hpre : new <+: confirm
  · obtain ⟨t, ht, hr, hk⟩ := replaced_of_prefix ho hn hc hs hx hpre
    constructor
    · rintro ⟨t', ht', hiff, -⟩ -
      obtain rfl : t = t' := Option.some.inj (ht.symm.trans ht')
      exact hiff.mp hr
    · intro h
      exact ⟨t, ht, iff_of_true hr (h hpre), fun hno => absurd (h hpre) hno⟩
  · obtain ⟨t, ht, hr, hk⟩ := kept_of_not_prefix ho hn hc hs hx hpre
    have hno : ¬ Entitled s x old new confirm := by
      rintro ⟨-, rfl⟩
      exact hpre ⟨[], List.append_nil new⟩
    exact iff_of_true ⟨t, ht, iff_of_false hr hno, fun _ => hk⟩
      fun h => absurd h hpre

/-- From `pw` to `new`. -/
theorem password_rule_iff_pw :
    PasswordRule { Httpd.boot flashWithPassword with st := .passSent }
      (changeCall "pw" "new" "new") (bytesOf "pw") (bytesOf "new")
      (bytesOf "new") := by
  refine (password_rule_iff (s := { Httpd.boot flashWithPassword with
    st := .passSent }) (by decide) (by decide) (by decide) rfl rfl).mpr ?_
  intro _
  exact ⟨by decide +kernel, rfl⟩

/-- The rule does not hold: with any old password, and a confirmation that
goes on behind the new password, the change is carried out. -/
theorem not_password_rule :
    ¬ ∀ (s : Httpd) (x : HttpCall) (old new confirm z : List UInt8),
      Plain old → Plain new → Plain confirm → s.st = .passSent →
      x.p = some (changeRequest old new confirm z) →
      PasswordRule s x old new confirm := by
  intro h
  have ho : Plain (bytesOf "wrong") := by decide
  have hn : Plain (bytesOf "new") := by decide
  have hc : Plain (bytesOf "newer") := by decide
  obtain ⟨t, ht, -, hkept⟩ := h
    { Httpd.boot flashWithPassword with st := .passSent }
    (changeCall "wrong" "new" "newer") _ _ _ _ ho hn hc rfl rfl
  obtain ⟨t', ht', -, hk⟩ := replaced_of_prefix
    (s := { Httpd.boot flashWithPassword with st := .passSent })
    (x := changeCall "wrong" "new" "newer") ho hn hc rfl rfl (by decide)
  obtain rfl : t = t' := Option.some.inj (ht.symm.trans ht')
  exact hk (hkept fun he => absurd he.2 (by decide))

end Roip
