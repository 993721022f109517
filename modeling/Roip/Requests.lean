/-
Roip/Requests.lean

What a call of `http_recv` does.

A call that answers a request does what the request asks for and then writes
the page and closes the connection (`httpStep_of_request`).  `Answers` says
once what answering can do: with one constructor for each way through the four
branches, it gives the actions, the page and the new state.
-/
import Roip.Httpd

namespace Roip

variable {s t : Httpd} {x : HttpCall} {r : Request}

/-! ### The request line -/

/-- A string starts with a name. -/
theorem startsWith_iff {m name : List UInt8} (h : 0 ∉ name) :
    startsWith m name = true ↔ name <+: m := by
  have hpre : strncmpEq0 (name ++ []) m name.length = true ↔ name <+: m :=
    strncmpEq0_iff h
  rwa [List.append_nil] at hpre

/-- The bytes a request is known by. -/
def Request.line : Request → List UInt8
  | .root => bytesOf "GET / "
  | .passSent => bytesOf "GET /pass_sent.cgi"
  | .ipSet => bytesOf "GET /ip_set.cgi"
  | .changePass => bytesOf "GET /change_pass.cgi"
  | .passSet => bytesOf "GET /pass_set.cgi"

theorem requestOf_line (r : Request) (z : List UInt8) :
    requestOf (r.line ++ z) = some r := by
  cases r <;> rfl

theorem line_of_name {m name : List UInt8} (h : request <+: m)
    (hn : name <+: m.drop 5) : request ++ name <+: m := by
  obtain ⟨z, rfl⟩ := h
  have hz : (request ++ z).drop 5 = z := rfl
  rw [hz] at hn
  obtain ⟨z', rfl⟩ := hn
  exact ⟨z', List.append_assoc _ _ _⟩

/-- **The request of a segment** is the one whose line it starts with. -/
theorem requestOf_eq_some_iff {m : List UInt8} :
    requestOf m = some r ↔ r.line <+: m := by
  constructor
  · intro h
    unfold requestOf at h
    split at h
    swap
    · cases h
    next hget =>
      rw [startsWith_iff (by decide)] at hget
      -- every name is compared at byte 5, behind `GET /`
      have hname {name : List UInt8} (h0 : 0 ∉ name)
          (hs : startsWith (m.drop 5) name = true) : request ++ name <+: m :=
        line_of_name hget ((startsWith_iff h0).mp hs)
      split at h
      · next hspace =>
        cases h
        obtain ⟨z, rfl⟩ := hget
        rcases z with - | ⟨c, z⟩
        · exact absurd hspace (by decide)
        · have hc : c = 32 := hspace
          exact ⟨z, by rw [hc]; rfl⟩
      split at h
      · next hs =>
        cases h
        exact hname (by decide) hs
      split at h
      · next hs =>
        cases h
        exact hname (by decide) hs
      split at h
      · next hs =>
        cases h
        exact hname (by decide) hs
      split at h
      · next hs =>
        cases h
        exact hname (by decide) hs
      · cases h
  · rintro ⟨z, rfl⟩
    exact requestOf_line r z

/-- What follows a text does not change which request it is, unless the text
is a line that is cut. -/
theorem requestOf_append {m : List UInt8}
    (h : ∀ r : Request, m <+: r.line → m = r.line) (z : List UInt8) :
    requestOf (m ++ z) = requestOf m := by
  have hline (r : Request) : r.line <+: m ++ z ↔ r.line <+: m := by
    constructor
    · intro hpre
      rcases Nat.le_total r.line.length m.length with hle | hle
      · exact List.prefix_of_prefix_length_le hpre (List.prefix_append _ _) hle
      · have hfull : m = r.line := h r
          (List.prefix_of_prefix_length_le (List.prefix_append _ _) hpre hle)
        exact ⟨[], (List.append_nil _).trans hfull.symm⟩
    · intro hpre
      exact hpre.trans (List.prefix_append _ _)
  apply Option.ext
  intro r
  show requestOf _ = some r ↔ requestOf _ = some r
  rw [requestOf_eq_some_iff, requestOf_eq_some_iff, hline]

/-! ### The parts of a call -/

namespace HttpCall

/-- The payload; nothing when the remote end has closed the connection. -/
def payload (x : HttpCall) : List UInt8 := x.p.getD []

/-- The payload with the memory behind it. -/
def rq (x : HttpCall) : List UInt8 := x.payload ++ x.env.behind

/-- The request a call answers. -/
def request (x : HttpCall) : Option Request :=
  x.p.bind fun p => requestOf (p ++ x.env.behind)

/-- A payload that starts with the line of a request. -/
theorem request_of_prefix {x : HttpCall} {p : List UInt8} (hp : x.p = some p)
    (h : r.line <+: p) : x.request = some r := by
  rw [HttpCall.request, hp, Option.bind_some, requestOf_eq_some_iff]
  exact h.trans (List.prefix_append _ _)

/-- Whether a login is accepted in the state `s`. -/
def passwordOk (x : HttpCall) (s : Httpd) : Bool :=
  Roip.passwordOk x.rq x.payload.length
    (s.flash.password ++ x.env.behindBuff)

/-- The addresses submitted. -/
def addresses (x : HttpCall) : Addresses :=
  readAddresses x.rq x.payload.length

/-- The passwords submitted. -/
def passwords (x : HttpCall) : Option Passwords :=
  readPasswords x.rq x.payload.length x.env.locals

/-- The answer to the request `r`. -/
def answer (x : HttpCall) (s : Httpd) (r : Request) :
    Traced HttpAct (Page × Httpd) :=
  Roip.answer s x.rq x.payload.length x.env r

/-- A segment of the client `ip`, with nothing behind it and the flash
working. -/
def ofString (ip : UInt32) (s : String) : HttpCall where
  pcb := ⟨0, ip⟩
  p := some (bytesOf s)
  env := ⟨[], [], ⟨.fill 16 0, .fill 16 0, .fill 16 0⟩, .success, 0⟩

end HttpCall

/-- An erased flash with the password `pw`. -/
def flashWithPassword : FlashImage :=
  (erased.storePassword (bytesOf "pw")).getD erased

/-- What is done for every answered request. -/
def closing (x : HttpCall) (page : Page) : List HttpAct :=
  [.write x.pcb page, .output x.pcb, .close x.pcb, .pbufFree]

/-- A call that answers a request. -/
theorem httpStep_of_request (h : x.request = some r) :
    httpStep s x =
      ⟨.recved x.pcb x.payload.length :: ((x.answer s r).out ++
        (x.answer s r).res.elim [] fun a => closing x a.1),
        (x.answer s r).res.map Prod.snd⟩ := by
  obtain ⟨pcb, _ | p, env⟩ := x
  · cases h
  have hrq : requestOf (p ++ env.behind) = some r := h
  rw [httpStep, httpRecv]
  simp only [hrq]
  show Traced.emit _ >>= _ = _
  rcases e : HttpCall.answer ⟨pcb, some p, env⟩ s r with ⟨o, _ | ⟨page, t⟩⟩
  · have e' : answer s (p ++ env.behind) p.length env r = ⟨o, none⟩ := e
    rw [e']
    apply Traced.ext
    · simp [HttpCall.payload]
    · simp
  · have e' : answer s (p ++ env.behind) p.length env r = ⟨o, some (page, t)⟩ := e
    rw [e']
    apply Traced.ext
    · simp [HttpCall.payload, Traced.mk_bind, respond, closing]
    · simp [Traced.mk_bind, respond]

/-- A call with a request that is not known. -/
theorem httpStep_unknown {p : List UInt8} (hp : x.p = some p)
    (h : x.request = none) : httpStep s x =
      ⟨[.recved x.pcb p.length, .pbufFree], some s⟩ := by
  obtain ⟨pcb, q, env⟩ := x
  obtain rfl : q = some p := hp
  have hrq : requestOf (p ++ env.behind) = none := h
  rw [httpStep, httpRecv]
  simp only [hrq]
  rfl

/-- A call that answers nothing. -/
theorem httpStep_of_none (h : x.request = none) :
    (httpStep s x).res = some s ∧
      ∀ a ∈ (httpStep s x).out,
        a = .recved x.pcb x.payload.length ∨ a = .pbufFree := by
  rcases hp : x.p with - | p
  · rw [httpStep, hp]
    exact ⟨rfl, by rintro _ ⟨⟩⟩
  · rw [httpStep_unknown hp h, HttpCall.payload, hp]
    refine ⟨rfl, ?_⟩
    intro a ha
    simpa using ha

/-! ### The ways through an answer -/

/-- The requests that are refused without a login. -/
def Request.needsLogin : Request → Bool
  | .root | .passSent => false
  | .ipSet | .changePass | .passSet => true

/-- **What answering does.**  `Answers s x r o res`: in the state `s`, the call
`x` answers the request `r` with the actions `o` and comes to `res`, the page
and the new state, or is undefined. -/
inductive Answers (s : Httpd) (x : HttpCall) :
    Request → List HttpAct → Option (Page × Httpd) → Prop
  | root : Answers s x .root [] (some (.login, s))
  | loggedIn (h : x.passwordOk s = true) :
    Answers s x .passSent [.setState .passSent]
      (some (.setup s.net,
        { s with flashBuff := s.flash, st := .passSent }))
  | loginFailed (h : x.passwordOk s = false) :
    Answers s x .passSent [.setState .disconnected]
      (some (.wrongPassword,
        { s with flashBuff := s.flash, st := .disconnected }))
  | refused {r : Request} (hr : r.needsLogin = true) (h : s.st ≠ .passSent) :
    Answers s x r [.setState .disconnected]
      (some (.wrongPassword, { s with st := .disconnected }))
  | stored {b : FlashImage} (h : s.st = .passSent)
      (hb : s.flashBuff.storeAddresses x.addresses = some b) :
    Answers s x .ipSet
      [.setState .configChanged, .writeFlash, .sysresetReq x.env.now]
      (some (.changedConfiguration,
        { s with
          st := .configChanged
          flashBuff := b
          flash := (writeFlash b s.flash x.env.iap).2
          sysresetReq := x.env.now }))
  | changePassForm (h : s.st = .passSent) :
    Answers s x .changePass [] (some (.changePass, s))
  | overflow (h : s.st = .passSent) (hl : x.passwords = none) :
    Answers s x .passSet [] none
  | changed {l : Passwords} {b : FlashImage} (h : s.st = .passSent)
      (hl : x.passwords = some l) (hok : l.changeOk = true)
      (hb : s.flashBuff.storePassword (cstr l.new.cells) = some b) :
    Answers s x .passSet [.writeFlash, .setState .disconnected]
      (some (.changedPassword,
        { s with
          st := .disconnected
          flashBuff := b
          flash := (writeFlash b s.flash x.env.iap).2 }))
  | unsuccessful {l : Passwords} (h : s.st = .passSent)
      (hl : x.passwords = some l) (hok : l.changeOk = false) :
    Answers s x .passSet [.setState .disconnected]
      (some (.changePasswordUnsuccessful, { s with st := .disconnected }))

/-- The string in a buffer of 16 bytes fits into the password field. -/
theorem storePassword_cstr (b : FlashImage) (a : CArray UInt8 16) :
    ∃ c, b.storePassword (cstr a.cells) = some c ∧
      c.addresses = b.addresses := by
  have hle : (cstr a.cells).length ≤ a.cells.length :=
    (List.takeWhile_sublist _).length_le
  rw [a.size] at hle
  obtain ⟨c, hc, hcells⟩ := b.storePassword_cells
    (s := cstr a.cells) (by omega)
  exact ⟨c, hc, (FlashImage.layout_of_storePassword hcells).1⟩

/-- Without a login the request is refused. -/
theorem answer_refused (x : HttpCall) (hr : r.needsLogin = true)
    (h : s.st ≠ .passSent) :
    x.answer s r = ⟨[.setState .disconnected],
      some (.wrongPassword, { s with st := .disconnected })⟩ := by
  cases r with
  | root | passSent => cases hr
  | ipSet | changePass | passSet => exact if_neg h

theorem answer_ipSet {b : FlashImage} (h : s.st = .passSent)
    (hb : s.flashBuff.storeAddresses x.addresses = some b) :
    x.answer s .ipSet =
      ⟨[.setState .configChanged, .writeFlash, .sysresetReq x.env.now],
        some (.changedConfiguration,
          { s with
            st := .configChanged
            flashBuff := b
            flash := (writeFlash b s.flash x.env.iap).2
            sysresetReq := x.env.now })⟩ := by
  have hb' : s.flashBuff.storeAddresses (readAddresses x.rq x.payload.length) =
      some b := hb
  show answerIpSet s x.rq x.payload.length x.env = _
  rw [answerIpSet, if_pos h]
  simp only [Httpd.setState, bind_assoc, pure_bind, hb', Traced.ofOption_some]
  rfl

theorem answer_changed {l : Passwords} {b : FlashImage} (h : s.st = .passSent)
    (hl : x.passwords = some l) (hok : l.changeOk = true)
    (hb : s.flashBuff.storePassword (cstr l.new.cells) = some b) :
    x.answer s .passSet = ⟨[.writeFlash, .setState .disconnected],
      some (.changedPassword,
        { s with
          st := .disconnected
          flashBuff := b
          flash := (writeFlash b s.flash x.env.iap).2 })⟩ := by
  have hl' : readPasswords x.rq x.payload.length x.env.locals = some l := hl
  show answerPassSet s x.rq x.payload.length x.env = _
  rw [answerPassSet, if_pos h, hl', Traced.ofOption_some, pure_bind,
    if_pos hok, hb, Traced.ofOption_some, pure_bind]
  rfl

theorem answer_unsuccessful {l : Passwords} (h : s.st = .passSent)
    (hl : x.passwords = some l) (hok : l.changeOk = false) :
    x.answer s .passSet = ⟨[.setState .disconnected],
      some (.changePasswordUnsuccessful, { s with st := .disconnected })⟩ := by
  have hl' : readPasswords x.rq x.payload.length x.env.locals = some l := hl
  show answerPassSet s x.rq x.payload.length x.env = _
  rw [answerPassSet, if_pos h, hl', Traced.ofOption_some, pure_bind,
    if_neg (by rw [hok]; exact Bool.false_ne_true)]
  rfl

theorem answer_overflow (h : s.st = .passSent) (hl : x.passwords = none) :
    x.answer s .passSet = ⟨[], none⟩ := by
  have hl' : readPasswords x.rq x.payload.length x.env.locals = none := hl
  show answerPassSet s x.rq x.payload.length x.env = _
  rw [answerPassSet, if_pos h, hl']
  rfl

/-- The answer to a login. -/
theorem answer_passSent (s : Httpd) (x : HttpCall) :
    x.answer s .passSent =
      if x.passwordOk s then
        ⟨[.setState .passSent], some (.setup s.net,
          { s with flashBuff := s.flash, st := .passSent })⟩
      else
        ⟨[.setState .disconnected], some (.wrongPassword,
          { s with flashBuff := s.flash, st := .disconnected })⟩ := rfl

/-- Every answer goes one of the ways. -/
theorem answer_answers (s : Httpd) (x : HttpCall) (r : Request) :
    Answers s x r (x.answer s r).out (x.answer s r).res := by
  rcases r with _ | _ | _ | _ | _
  · exact .root
  · rw [answer_passSent]
    split
    · next hok => exact .loggedIn hok
    · next hok => exact .loginFailed (Bool.not_eq_true _ ▸ hok)
  · by_cases h : s.st = .passSent
    · obtain ⟨b, hb, -⟩ := s.flashBuff.storeAddresses_cells x.addresses
      rw [answer_ipSet h hb]
      exact .stored h hb
    · rw [answer_refused x rfl h]
      exact .refused rfl h
  · by_cases h : s.st = .passSent
    · have e : x.answer s .changePass = ⟨[], some (.changePass, s)⟩ :=
        if_pos h
      rw [e]
      exact .changePassForm h
    · rw [answer_refused x rfl h]
      exact .refused rfl h
  · by_cases h : s.st = .passSent
    · rcases hl : x.passwords with - | l
      · rw [answer_overflow h hl]
        exact .overflow h hl
      · rcases hok : l.changeOk with - | -
        · rw [answer_unsuccessful h hl hok]
          exact .unsuccessful h hl hok
        · obtain ⟨b, hb, -⟩ := storePassword_cstr s.flashBuff l.new
          rw [answer_changed h hl hok hb]
          exact .changed h hl hok hb
    · rw [answer_refused x rfl h]
      exact .refused rfl h

/-! ### What is not the stack's -/

/-- The calls of the stack. -/
def HttpAct.isStack : HttpAct → Bool
  | .setState _ | .writeFlash | .sysresetReq _ => false
  | .recved _ _ | .write _ _ | .output _ | .close _ | .pbufFree => true

/-- The assignments to `st` and `sysreset_req` and the writes of the flash. -/
def effects (o : List HttpAct) : List HttpAct := o.filter fun a => !a.isStack

theorem mem_effects {o : List HttpAct} {a : HttpAct} (ha : a.isStack = false) :
    a ∈ effects o ↔ a ∈ o := by
  rw [effects, List.mem_filter, ha]
  exact and_iff_left rfl

theorem count_effects (o : List HttpAct) {a : HttpAct}
    (ha : a.isStack = false) : (effects o).count a = o.count a :=
  List.count_filter (by rw [ha]; rfl)

/-- An answer itself leaves the stack alone. -/
theorem effects_answer (s : Httpd) (x : HttpCall) (r : Request) :
    effects (x.answer s r).out = (x.answer s r).out := by
  have h := answer_answers s x r
  generalize (x.answer s r).out = o at h
  generalize (x.answer s r).res = u at h
  -- no way through an answer calls the stack
  cases h <;> rfl

theorem not_mem_answer {a : HttpAct} (ha : a.isStack = true) :
    a ∉ (x.answer s r).out := by
  intro hmem
  rw [← effects_answer, effects, List.mem_filter, ha] at hmem
  cases hmem.2

/-- The page of a call is the page of the answer. -/
theorem write_mem_httpStep {page : Page} :
    .write x.pcb page ∈ (httpStep s x).out ↔
      ∃ r t, x.request = some r ∧ (x.answer s r).res = some (page, t) := by
  rcases hr : x.request with - | r
  · constructor
    · intro h
      rcases (httpStep_of_none hr).2 _ h with hc | hc <;> cases hc
    · rintro ⟨r, t, hno, -⟩
      cases hno
  · have hans : .write x.pcb page ∉ (x.answer s r).out := not_mem_answer rfl
    rw [httpStep_of_request hr, List.mem_cons, List.mem_append]
    rcases e : (x.answer s r).res with - | ⟨page', t⟩
    · simp [hans, e]
    · simp [hans, closing, e, eq_comm]

theorem effects_httpStep (s : Httpd) (x : HttpCall) :
    effects (httpStep s x).out =
      x.request.elim [] fun r => (x.answer s r).out := by
  rcases h : x.request with - | r
  · obtain ⟨-, hout⟩ := httpStep_of_none (s := s) h
    apply List.filter_eq_nil_iff.mpr
    intro a ha
    rcases hout a ha with rfl | rfl <;> exact Bool.false_ne_true
  · have hclose (u : Option (Page × Httpd)) :
        effects (u.elim [] fun a => closing x a.1) = [] := by
      cases u <;> rfl
    have h' := hclose (x.answer s r).res
    rw [effects] at h'
    rw [httpStep_of_request h, effects, List.filter_cons_of_neg
      Bool.false_ne_true, List.filter_append, h', List.append_nil]
    exact effects_answer s x r

/-- **What a call does**, the stack apart: nothing, or what answering its
request does. -/
theorem httpStep_cases (s : Httpd) (x : HttpCall) :
    (x.request = none ∧ effects (httpStep s x).out = [] ∧
      (httpStep s x).res = some s) ∨
    ∃ r o u, x.request = some r ∧ Answers s x r o u ∧
      effects (httpStep s x).out = o ∧
      (httpStep s x).res = u.map Prod.snd := by
  rw [effects_httpStep]
  rcases h : x.request with - | r
  · exact Or.inl ⟨rfl, rfl, (httpStep_of_none h).1⟩
  · refine Or.inr ⟨r, _, _, rfl, answer_answers s x r, rfl, ?_⟩
    rw [httpStep_of_request h]

end Roip
