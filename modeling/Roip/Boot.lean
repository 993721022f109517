/-
Roip/Boot.lean

The configuration the device boots with.

The server stores whatever addresses are submitted and announces a reset;
`main` uses what it finds in the flash only if it passes the check
`Addresses.usable`.  The check also passes the flash that has never been
written.  So after a reset the device has the addresses that have been accepted
last, or its defaults, exactly if some have been accepted and pass the check
(`boot_iff`).
-/
import Roip.Requests

namespace Roip

variable {s t : Httpd} {x : HttpCall}

/-! ### The device between its resets -/

inductive BootAct
  | call (x : HttpCall)
  | reset
deriving DecidableEq

/-- Whether a call is answered with the page that announces a reset. -/
def HttpCall.announcesReset (x : HttpCall) (s : Httpd) : Bool :=
  .write x.pcb .changedConfiguration ∈ (httpStep s x).out

/-- A call of `http_recv`, or a reset.  The addresses that are accepted are
reported. -/
def bootStep (s : Httpd) : BootAct → Traced Addresses Httpd
  | .call x =>
    ⟨if x.announcesReset s then [x.addresses] else [], (httpStep s x).res⟩
  | .reset => pure (.boot s.flash)

/-- The announcement comes from an `ip_set` that has been accepted. -/
theorem announcesReset_iff :
    x.announcesReset s = true ↔ x.request = some .ipSet ∧ s.st = .passSent := by
  rw [HttpCall.announcesReset, decide_eq_true_iff, write_mem_httpStep]
  constructor
  · rintro ⟨r, t, hr, hres⟩
    -- only one way through an answer comes to this page
    have ha := answer_answers s x r
    generalize (x.answer s r).out = o at ha
    generalize (x.answer s r).res = u at ha hres
    cases ha with
    | stored h => exact ⟨hr, h⟩
    | overflow => cases hres
    | root | loggedIn | loginFailed | refused | changePassForm | changed |
        unsuccessful =>
      cases hres
  · rintro ⟨hr, h⟩
    obtain ⟨b, hb, -⟩ := s.flashBuff.storeAddresses_cells x.addresses
    exact ⟨.ipSet, _, hr, by rw [answer_ipSet h hb]⟩

theorem bootStep_accepted (h : x.request = some .passSent ∧
    x.passwordOk s = true) : bootStep s (.call x) =
      ⟨[], some { s with flashBuff := s.flash, st := .passSent }⟩ := by
  have hno : ¬ x.announcesReset s = true := by
    rw [announcesReset_iff, h.1]
    rintro ⟨hr, -⟩
    cases hr
  rw [bootStep, if_neg hno, httpStep_of_request h.1, answer_passSent,
    if_pos h.2]
  rfl

theorem bootStep_ipSet (hr : x.request = some .ipSet) (h : s.st = .passSent) :
    ∃ t, bootStep s (.call x) = ⟨[x.addresses], some t⟩ := by
  obtain ⟨b, hb, -⟩ := s.flashBuff.storeAddresses_cells x.addresses
  rw [bootStep, if_pos (announcesReset_iff.mpr ⟨hr, h⟩),
    httpStep_of_request hr, answer_ipSet h hb]
  exact ⟨_, rfl⟩

/-! ### What is in the flash -/

/-- The flash holds the addresses accepted last, and `flash_buff` is its
copy. -/
structure Synced (o : List Addresses) (s : Httpd) : Prop where
  copy : s.flashBuff = s.flash
  last : s.flash.addresses = o.getLast?.getD erased.addresses

/-- A call with a working flash keeps it so. -/
theorem Synced.call {o o' : List Addresses} (h : Synced o s)
    (herase : x.env.iap.erase = 0) (hcopy : x.env.iap.copy = 0)
    (hx : bootStep s (.call x) = ⟨o', some t⟩) : Synced (o ++ o') t := by
  obtain ⟨ho, hres⟩ := Traced.mk.inj hx
  by_cases hacc : x.request = some .ipSet ∧ s.st = .passSent
  · -- accepted: the addresses submitted are in the flash now
    rw [if_pos (announcesReset_iff.mpr hacc)] at ho
    obtain ⟨b, hb, hcells⟩ := s.flashBuff.storeAddresses_cells x.addresses
    rw [httpStep_of_request hacc.1, answer_ipSet hacc.2 hb] at hres
    cases hres
    have hflash : (writeFlash b s.flash x.env.iap).2 = b :=
      writeFlash_success herase hcopy b s.flash
    refine ⟨hflash.symm, ?_⟩
    rw [← ho, List.getLast?_concat, Option.getD_some]
    show (writeFlash b s.flash x.env.iap).2.addresses = x.addresses
    rw [hflash]
    exact FlashImage.addresses_of_cells hcells
  · rw [if_neg (mt announcesReset_iff.mp hacc)] at ho
    rw [← ho, List.append_nil]
    rcases httpStep_cases s x with ⟨-, -, hres'⟩ | ⟨r, o, u, hr, ha, -, hres'⟩
    · rw [hres'] at hres
      cases hres
      exact h
    · rw [hres'] at hres
      cases ha with
      | root | changePassForm | refused | unsuccessful =>
        cases hres
        exact ⟨h.copy, h.last⟩
      | loggedIn | loginFailed =>
        cases hres
        exact ⟨rfl, h.last⟩
      | stored hs _ => exact absurd ⟨hr, hs⟩ hacc
      | overflow => cases hres
      | @changed l b _ _ _ hb =>
        cases hres
        have hflash : (writeFlash b s.flash x.env.iap).2 = b :=
          writeFlash_success herase hcopy b s.flash
        obtain ⟨c, hc, haddr⟩ := storePassword_cstr s.flashBuff l.new
        obtain rfl : b = c := Option.some.inj (hb.symm.trans hc)
        refine ⟨hflash.symm, ?_⟩
        show (writeFlash b s.flash x.env.iap).2.addresses = _
        rw [hflash, haddr, h.copy, h.last]

theorem defaultAddresses_usable : defaultAddresses.usable = true := by decide

/-- **What the device boots with.**  In any history of requests and resets that
starts with an erased flash and in which the flash works: after every reset
the device uses the addresses accepted last, or the defaults if none have been
accepted, if and only if at every reset some have been accepted and the last
ones pass the check of `main`. -/
theorem boot_iff {xs : List BootAct}
    (hxs : ∀ x, .call x ∈ xs → x.env.iap.erase = 0 ∧ x.env.iap.copy = 0) :
    (∀ o t, Feeds bootStep (.boot erased) xs o t .reset →
      (Httpd.boot t.flash).net = o.getLast?.getD defaultAddresses) ↔
    ∀ o t, Feeds bootStep (.boot erased) xs o t .reset →
      ∃ a, o.getLast? = some a ∧ a.usable = true := by
  have hsync {o : List Addresses} {t : Httpd}
      (hv : Visits bootStep (.boot erased) xs o t) : Synced o t := by
    refine visits_inv ⟨rfl, rfl⟩ ?_ hv
    intro o t y o' t' hf hI hy
    rcases y with x | -
    · obtain ⟨pre, post, hsplit, -⟩ := hf
      have hiap := hxs x (by rw [hsplit]; simp)
      exact hI.call hiap.1 hiap.2 hy
    · obtain ⟨rfl, rfl⟩ := Traced.pure_eq_mk_iff.mp hy
      rw [List.append_nil]
      exact ⟨rfl, hI.last⟩
  refine forall₃_congr fun o t hf => ?_
  have hlast := (hsync hf.visits).last
  show bootAddresses t.flash = _ ↔ _
  rw [bootAddresses, hlast]
  rcases o.getLast? with - | a
  · -- the erased flash passes the check and is not the defaults
    refine iff_of_false ?_ ?_
    · exact (show ¬ (if erased.addresses.usable then erased.addresses else
        defaultAddresses) = defaultAddresses by decide +kernel)
    · rintro ⟨a, ha, -⟩
      cases ha
  · simp only [Option.getD_some, Option.some.injEq]
    constructor
    · intro ha
      refine ⟨a, rfl, ?_⟩
      by_contra hno
      rw [if_neg hno] at ha
      rw [← ha] at hno
      exact hno defaultAddresses_usable
    · rintro ⟨a, rfl, hok⟩
      exact if_pos hok

/-- The password of an erased flash, nothing being behind it. -/
def loginErased : HttpCall where
  pcb := ⟨0, 1⟩
  p := some (bytesOf "GET /pass_sent.cgi?password=" ++
    List.replicate 230 0xFF ++ bytesOf " HTTP/1.0")
  env := (HttpCall.ofString 1 "").env

/-- A configuration that ends after its first octet: the other octets, the
network mask among them, are zero. -/
def submitShort : HttpCall := .ofString 1 "GET /ip_set.cgi?ip_local1=10 HTTP/1.0"

theorem loginErased_ok : loginErased.request = some .passSent ∧
    loginErased.passwordOk (.boot erased) = true :=
  ⟨rfl, by decide +kernel⟩

/-- A fresh device that is given these addresses boots with them. -/
theorem boot_iff_submitShort :
    ∃ o t, Feeds bootStep (.boot erased)
        [.call loginErased, .call submitShort, .reset] o t .reset ∧
      (Httpd.boot t.flash).net = o.getLast?.getD defaultAddresses := by
  have hlogin : bootStep (.boot erased) (.call loginErased) =
      ⟨[], some { Httpd.boot erased with st := .passSent }⟩ :=
    bootStep_accepted loginErased_ok
  obtain ⟨t, hsubmit⟩ := bootStep_ipSet (x := submitShort)
    (s := { Httpd.boot erased with st := .passSent }) rfl rfl
  have hrun : run bootStep (.boot erased)
      [.call loginErased, .call submitShort] =
      ⟨[submitShort.addresses], some t⟩ := by
    rw [run_cons, hlogin, Traced.mk_bind, run_cons, hsubmit]
    rfl
  have hfeeds : Feeds bootStep (.boot erased)
      [.call loginErased, .call submitShort, .reset] [submitShort.addresses] t
      .reset := ⟨_, [], rfl, hrun⟩
  refine ⟨_, t, hfeeds, (boot_iff ?_).mpr ?_ _ _ hfeeds⟩
  · intro x hx
    rcases List.mem_cons.mp hx with h | hx
    · rw [BootAct.call.inj h]
      exact ⟨rfl, rfl⟩
    rcases List.mem_cons.mp hx with h | hx
    · rw [BootAct.call.inj h]
      exact ⟨rfl, rfl⟩
    · cases List.mem_singleton.mp hx
  · rintro o u ⟨pre, post, hsplit, hpre⟩
    have hlen : pre = [.call loginErased, .call submitShort] := by
      rcases pre with - | ⟨a, - | ⟨b, - | ⟨c, pre⟩⟩⟩ <;> simp at hsplit
      obtain ⟨rfl, rfl, -⟩ := hsplit
      rfl
    rw [hlen, hrun] at hpre
    cases hpre
    exact ⟨_, rfl, by decide +kernel⟩

/-- A fresh device does not boot with the default addresses. -/
theorem not_boot_last :
    ¬ ∀ xs, (∀ x, .call x ∈ xs → x.env.iap.erase = 0 ∧ x.env.iap.copy = 0) →
      ∀ o t, Feeds bootStep (.boot erased) xs o t .reset →
        (Httpd.boot t.flash).net = o.getLast?.getD defaultAddresses := by
  intro h
  have hnet := h [.reset] (by simp) [] (.boot erased) ⟨[], [], rfl, rfl⟩
  exact absurd hnet (by decide +kernel)

end Roip
