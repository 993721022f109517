/-
Roip/Commit.lean

What a reported success says about the flash.

`write_flash` gives four commands and returns the code of the last one.  When
erasing has failed the copy goes into a sector that is not erased, and only
clears bits; so its success tells that the buffer is in the flash only if no
bit had to be set (`Covers`).  `http_recv` does not look at the code at all.
The rule, that a success is reported only when the flash holds the buffer,
holds exactly when the commands leave the buffer in the flash (`commit_iff`).
-/
import Roip.Requests

namespace Roip

variable {s t : Httpd} {x : HttpCall} {buff flash : FlashImage} {e : IapEnv}

/-! ### Writing the flash -/

/-- Every bit that is set in `buff` is set in `flash`. -/
def Covers (flash buff : FlashImage) : Prop :=
  ∀ c ∈ flash.cells.zip buff.cells, c.1 &&& c.2 = c.2

/-- The commands leave `buff` in the flash. -/
def Commits (buff flash : FlashImage) (e : IapEnv) : Prop :=
  if e.copy = 0 then e.erase = 0 ∨ Covers flash buff
  else if e.erase = 0 then buff = erased
  else buff = flash

theorem zipWith_and_eq_iff {l m : List UInt8} (h : l.length = m.length) :
    List.zipWith (· &&& ·) l m = m ↔ ∀ c ∈ l.zip m, c.1 &&& c.2 = c.2 := by
  induction l generalizing m with
  | nil =>
    obtain rfl : m = [] := List.length_eq_zero_iff.mp h.symm
    simp
  | cons a l ih =>
    rcases m with - | ⟨b, m⟩
    · cases h
    · rw [List.zipWith_cons_cons, List.zip_cons_cons, List.cons.injEq,
        List.forall_mem_cons, ih (Nat.succ.inj h)]

theorem covers_iff :
    Covers flash buff ↔ CArray.zipWith (· &&& ·) flash buff = buff := by
  rw [CArray.ext_iff]
  exact (zipWith_and_eq_iff (flash.size.trans buff.size.symm)).symm

/-- **When the buffer is in the flash** after a write. -/
theorem writeFlash_eq_iff (buff flash : FlashImage) (e : IapEnv) :
    (writeFlash buff flash e).2 = buff ↔ Commits buff flash e := by
  by_cases hc : e.copy = 0
  · rw [Commits, if_pos hc]
    by_cases he : e.erase = 0
    · exact iff_of_true (writeFlash_success he hc buff flash) (Or.inl he)
    · rw [or_iff_right he, covers_iff]
      simp only [writeFlash, preSectorForReadWrite, eraseSector, copyRamToFlash,
        if_pos hc, if_neg he]
  · rw [Commits, if_neg hc]
    simp only [writeFlash, preSectorForReadWrite, eraseSector, copyRamToFlash,
      if_neg hc]
    split
    · exact eq_comm
    · exact eq_comm

/-! ### Reporting it -/

/-- The pages that report a success. -/
def Page.reportsSuccess : Page → Bool
  | .changedPassword | .changedConfiguration => true
  | .login | .setup _ | .wrongPassword | .changePass
  | .changePasswordUnsuccessful => false

/-- The call answers that the password was changed, or that the chip is going
to reset. -/
def Reported (s : Httpd) (x : HttpCall) : Prop :=
  ∃ page, page.reportsSuccess = true ∧ .write x.pcb page ∈ (httpStep s x).out

/-- The contents a call gives `flash_buff`, if it stores something. -/
def HttpCall.stored (x : HttpCall) (s : Httpd) : Option FlashImage :=
  if s.st = .passSent then
    match x.request with
    | some .ipSet => s.flashBuff.storeAddresses x.addresses
    | some .passSet => x.passwords.bind fun l =>
      if l.changeOk then s.flashBuff.storePassword (cstr l.new.cells) else none
    | _ => none
  else none

/-- A call that stores something reports it, whatever the commands return. -/
theorem reported_of_stored {b : FlashImage} (h : x.stored s = some b) :
    Reported s x ∧ ∃ t, (httpStep s x).res = some t ∧ t.flashBuff = b ∧
      t.flash = (writeFlash b s.flash x.env.iap).2 := by
  rw [HttpCall.stored] at h
  split at h
  swap
  · cases h
  next hs =>
  split at h
  · next hr =>
    have ha := answer_ipSet hs h
    refine ⟨⟨.changedConfiguration, rfl, write_mem_httpStep.mpr
      ⟨_, _, hr, congrArg Traced.res ha⟩⟩, ?_⟩
    rw [httpStep_of_request hr, ha]
    exact ⟨_, rfl, rfl, rfl⟩
  · next hr =>
    obtain ⟨l, hl, hb⟩ := Option.bind_eq_some_iff.mp h
    split at hb
    swap
    · cases hb
    next hok =>
    have ha := answer_changed hs hl hok hb
    refine ⟨⟨.changedPassword, rfl, write_mem_httpStep.mpr
      ⟨_, _, hr, congrArg Traced.res ha⟩⟩, ?_⟩
    rw [httpStep_of_request hr, ha]
    exact ⟨_, rfl, rfl, rfl⟩
  · cases h

/-- A call that reports a success has stored something. -/
theorem stored_of_reported (h : Reported s x) : ∃ b, x.stored s = some b := by
  obtain ⟨page, hpage, hmem⟩ := h
  obtain ⟨r, t, hr, hres⟩ := write_mem_httpStep.mp hmem
  have ha := answer_answers s x r
  rw [hres] at ha
  generalize (x.answer s r).out = o at ha
  cases ha with
  | @stored b hs hb =>
    refine ⟨b, ?_⟩
    rw [HttpCall.stored, if_pos hs, hr]
    exact hb
  | @changed l b hs hl hok hb =>
    refine ⟨b, ?_⟩
    rw [HttpCall.stored, if_pos hs, hr]
    show x.passwords.bind _ = _
    rw [hl, Option.bind_some, if_pos hok]
    exact hb
  | root | loggedIn | loginFailed | refused | changePassForm | unsuccessful =>
    cases hpage

/-- **When a reported success can be trusted.**  If `write_flash` returns
success the flash holds the buffer exactly when erasing has succeeded or no
bit had to be set; if `http_recv` reports a success, exactly when the commands
leave what the call has stored in the flash. -/
theorem commit_iff (buff flash : FlashImage) (e : IapEnv) (s : Httpd)
    (x : HttpCall) :
    (((writeFlash buff flash e).1 = 0 → (writeFlash buff flash e).2 = buff) ↔
      (e.copy = 0 → e.erase = 0 ∨ Covers flash buff)) ∧
    ((Reported s x →
        ∃ t, (httpStep s x).res = some t ∧ t.flash = t.flashBuff) ↔
      ∀ b, x.stored s = some b → Commits b s.flash x.env.iap) := by
  constructor
  · have hcode : (writeFlash buff flash e).1 = e.copy := rfl
    rw [hcode, writeFlash_eq_iff]
    refine forall_congr' fun hc => ?_
    rw [Commits, if_pos hc]
  · constructor
    · intro h b hb
      obtain ⟨hrep, t, ht, hbuff, hflash⟩ := reported_of_stored hb
      obtain ⟨t', ht', heq⟩ := h hrep
      obtain rfl : t = t' := Option.some.inj (ht.symm.trans ht')
      rw [← writeFlash_eq_iff, ← hflash, heq, hbuff]
    · intro h hrep
      obtain ⟨b, hb⟩ := stored_of_reported hrep
      obtain ⟨-, t, ht, hbuff, hflash⟩ := reported_of_stored hb
      refine ⟨t, ht, ?_⟩
      rw [hflash, hbuff]
      exact (writeFlash_eq_iff _ _ _).mpr (h b hb)

/-- A configuration whose sector cannot be erased. -/
def notErased : HttpCall :=
  { HttpCall.ofString 1 "GET /ip_set.cgi?ip_local1=1 HTTP/1.0" with
    env := { (HttpCall.ofString 1 "").env with iap := ⟨0, 7, 0, 0⟩ } }

/-- The rule does not hold, neither of `write_flash` nor of `http_recv`: when
erasing fails and the copy succeeds, a sector of zeros stays as it is. -/
theorem not_commit :
    (¬ ∀ buff flash e, (writeFlash buff flash e).1 = 0 →
      (writeFlash buff flash e).2 = buff) ∧
    ¬ ∀ (s : Httpd) (x : HttpCall), Reported s x →
      ∃ t, (httpStep s x).res = some t ∧ t.flash = t.flashBuff := by
  constructor
  · intro h
    have heq := h erased (CArray.fill 256 0) ⟨0, 7, 0, 0⟩ rfl
    exact absurd (congrArg CArray.cells heq) (by decide +kernel)
  · intro h
    let s : Httpd := { Httpd.boot (CArray.fill 256 0) with st := .passSent }
    obtain ⟨t, ht, heq⟩ := h s notErased
      ⟨.changedConfiguration, rfl, by decide +kernel⟩
    have haddr : (httpStep s notErased).res.map (fun t => t.flash.addresses) =
        (httpStep s notErased).res.map (fun t => t.flashBuff.addresses) := by
      rw [ht]
      exact congrArg some (congrArg FlashImage.addresses heq)
    exact absurd haddr (by decide +kernel)

end Roip
