/-
Roip/Segments.lean

Requests in several segments.

Each segment is taken for a request of its own: `http_recv` keeps nothing of a
segment but the login state.  A request that TCP has cut therefore has the
effect it has in one piece only if all that is looked at is in the first
segment (`Complete`) and no later segment looks like a request.
-/
import Roip.Requests

namespace Roip

variable {s t : Httpd} {x : HttpCall}

/-! ### What is looked at -/

/-- The password of a login ends inside the payload. -/
def passwordInside (rq : List UInt8) (packetEnd : Nat) : Prop :=
  findSpace rq packetEnd (findEquals rq packetEnd 18) < packetEnd

/-- `n` octets from `p` on, and the searches between them, end inside the
payload. -/
def octetsInside (rq : List UInt8) (packetEnd : Nat) : Nat → Nat → Prop
  | 0, _ => True
  | n + 1, p =>
    p + strtoulScan (rq.drop p) < packetEnd ∧
      (n ≠ 0 →
        findEquals rq packetEnd (p + (strtoul (rq.drop p)).2) < packetEnd ∧
          octetsInside rq packetEnd n
            (findEquals rq packetEnd (p + (strtoul (rq.drop p)).2) + 1))

/-- The three values of a password change end inside the payload. -/
def passwordsInside (rq : List UInt8) (packetEnd : Nat) : Prop :=
  let p₁ := findEquals rq packetEnd 17 + 1
  let p₂ := findEquals rq packetEnd p₁ + 1
  let p₃ := findEquals rq packetEnd p₂ + 1
  findAmpersand rq packetEnd p₁ < packetEnd ∧
    findAmpersand rq packetEnd p₂ < packetEnd ∧
    findSpace rq packetEnd p₃ < packetEnd

/-- The answer to `r` looks at nothing behind the payload. -/
def HttpCall.Inside (x : HttpCall) (s : Httpd) : Request → Prop
  | .root | .changePass => True
  | .passSent => passwordInside x.rq x.payload.length
  | .ipSet =>
    s.st = .passSent → octetsInside x.rq x.payload.length 20 26
  | .passSet =>
    s.st = .passSent → passwordsInside x.rq x.payload.length

/-- The segment decides which request it is, and holds all that is looked at
to answer it. -/
structure HttpCall.Complete (x : HttpCall) (s : Httpd) : Prop where
  isSome : x.p.isSome
  decided : ∀ r : Request, x.payload <+: r.line → x.payload = r.line
  inside : ∀ r, x.request = some r → x.Inside s r

/-! ### What follows does not matter -/

section Inside

variable {w b y : List UInt8} {e : Nat}

theorem passwordOk_inside (he : w.length ≤ e) (pass : List UInt8)
    (h : passwordInside (w ++ b) w.length) :
    passwordOk (w ++ y) e pass = passwordOk (w ++ b) w.length pass := by
  have hlt : findEquals (w ++ b) w.length 18 < w.length :=
    Nat.lt_trans (lt_find _ _ _ _) h
  have heq : findEquals (w ++ y) e 18 = findEquals (w ++ b) w.length 18 :=
    find_inside he hlt
  have hspace : findSpace (w ++ y) e (findEquals (w ++ b) w.length 18) =
      findSpace (w ++ b) w.length (findEquals (w ++ b) w.length 18) :=
    find_inside he h
  rw [passwordOk, passwordOk]
  simp only [heq, hspace]
  rw [passwordInside] at h
  generalize findEquals (w ++ b) w.length 18 = p at h hlt ⊢
  generalize findSpace (w ++ b) w.length p = q at h ⊢
  by_cases hlen : q - (p + 1) = strlen0 pass
  · -- only the bytes up to `q` are compared
    refine congrArg (· && _) (strncmpEq0_congr fun i hi => ?_)
    rw [byteAt_drop, byteAt_drop, byteAt_append_left (by omega),
      byteAt_append_left (by omega)]
  · have hfalse : (q - (p + 1) == strlen0 pass) = false :=
      beq_false_of_ne hlen
    rw [hfalse, Bool.and_false, Bool.and_false]

theorem readOctets_inside (he : w.length ≤ e) {n p : Nat}
    (h : octetsInside (w ++ b) w.length n p) :
    readOctets (w ++ y) e n p = readOctets (w ++ b) w.length n p := by
  induction n generalizing p with
  | zero => rfl
  | succ n ih =>
    obtain ⟨hscan, hnext⟩ := h
    have hp : p ≤ w.length := by omega
    have hnum : strtoul ((w ++ y).drop p) = strtoul ((w ++ b).drop p) := by
      rw [List.drop_append_of_le_length hp] at hscan ⊢
      rw [List.drop_append_of_le_length hp]
      refine strtoul_inside ?_
      rw [List.length_drop]
      omega
    rw [readOctets, readOctets, hnum]
    dsimp only
    rcases n with - | n
    · rfl
    · obtain ⟨hfind, hrest⟩ := hnext (Nat.succ_ne_zero n)
      have hsame : findEquals (w ++ y) e
          (p + (strtoul ((w ++ b).drop p)).2) =
          findEquals (w ++ b) w.length (p + (strtoul ((w ++ b).drop p)).2) :=
        find_inside he hfind
      rw [hsame, ih hrest]

theorem copyField_inside {buf : CArray UInt8 16} {p q : Nat} (hp : p ≤ q)
    (hq : q ≤ w.length) :
    copyField buf (w ++ y) p q = copyField buf (w ++ b) p q := by
  rw [copyField, copyField, bytesAt_inside (by omega)]

theorem readPasswords_inside (he : w.length ≤ e) (l : Passwords)
    (h : passwordsInside (w ++ b) w.length) :
    readPasswords (w ++ y) e l = readPasswords (w ++ b) w.length l := by
  obtain ⟨ha₁, ha₂, hs₃⟩ := h
  -- each value ends inside, so the search for the `=` in front of it does
  have hlt {c : UInt8} {p q : Nat} (hq : find (w ++ b) 61 w.length p + 1 = q)
      (hin : find (w ++ b) c w.length q < w.length) :
      find (w ++ y) 61 e p = find (w ++ b) 61 w.length p := by
    have hlt := lt_find (w ++ b) c w.length q
    exact find_inside he (by omega)
  have he₁ := hlt rfl ha₁
  have he₂ := hlt rfl ha₂
  have he₃ := hlt rfl hs₃
  have ha₁' := find_inside (y := y) he ha₁
  have ha₂' := find_inside (y := y) he ha₂
  have hs₃' := find_inside (y := y) he hs₃
  have hcopy {buf : CArray UInt8 16} {c : UInt8} {p : Nat}
      (hin : find (w ++ b) c w.length p < w.length) :
      copyField buf (w ++ y) p (find (w ++ b) c w.length p) =
        copyField buf (w ++ b) p (find (w ++ b) c w.length p) :=
    copyField_inside (Nat.le_of_lt (lt_find _ _ _ _)) (Nat.le_of_lt hin)
  simp only [findEquals, findAmpersand, findSpace] at *
  simp only [readPasswords, findEquals, findAmpersand, findSpace, he₁, he₂,
    he₃, ha₁', ha₂', hs₃', hcopy ha₁, hcopy ha₂, hcopy hs₃]

end Inside

/-! ### Segments -/

/-- What follows a segment does not change which request it is. -/
theorem HttpCall.Complete.request (h : x.Complete s) (z : List UInt8) :
    requestOf (x.payload ++ z) = x.request := by
  have hreq : x.request = requestOf (x.payload ++ x.env.behind) := by
    obtain ⟨p, hp⟩ := Option.isSome_iff_exists.mp h.isSome
    rw [HttpCall.request, HttpCall.payload, hp]
    rfl
  rw [hreq, requestOf_append h.decided, requestOf_append h.decided]

/-- Segments that are no requests leave the state alone. -/
theorem run_idle {ys : List HttpCall} (h : ∀ y ∈ ys,
    y.request = none ∨ y.request = some .root) (s : Httpd) :
    (run httpStep s ys).res = some s := by
  induction ys with
  | nil => rfl
  | cons y ys ih =>
    have hy : (httpStep s y).res = some s := by
      rcases h y List.mem_cons_self with hno | hroot
      · exact (httpStep_of_none hno).1
      · rw [httpStep_of_request hroot]
        rfl
    rw [run_cons, Traced.bind_res, hy]
    exact ih fun z hz => h z (List.mem_cons_of_mem y hz)

/-- The whole of a request whose first segment is `x`: what is behind `x` and
what `x` sees behind it do not matter. -/
theorem HttpCall.Complete.answer (h : x.Complete s) {r : Request}
    (hr : x.request = some r) (v b : List UInt8) :
    HttpCall.answer { x with
      p := some (x.payload ++ v)
      env := { x.env with behind := b } } s r = x.answer s r := by
  have he : x.payload.length ≤ (x.payload ++ v).length := by
    rw [List.length_append]
    exact Nat.le_add_right _ _
  have hin := h.inside r hr
  show Roip.answer s (x.payload ++ v ++ b) (x.payload ++ v).length
    { x.env with behind := b } r = _
  rw [List.append_assoc]
  -- by the request: the page of the login and the refusals look at nothing
  rcases r with _ | _ | _ | _ | _
  · rfl
  · show answerPassSent _ _ _ _ = answerPassSent _ _ _ _
    rw [answerPassSent, answerPassSent]
    dsimp only
    rw [passwordOk_inside he _ hin]
    rfl
  · by_cases hs : s.st = .passSent
    · show answerIpSet _ _ _ _ = answerIpSet _ _ _ _
      rw [answerIpSet, answerIpSet, if_pos hs, if_pos hs, readAddresses,
        readAddresses, readOctets_inside he (hin hs)]
      rfl
    · show answerIpSet _ _ _ _ = answerIpSet _ _ _ _
      rw [answerIpSet, answerIpSet, if_neg hs, if_neg hs]
  · rfl
  · by_cases hs : s.st = .passSent
    · show answerPassSet _ _ _ _ = answerPassSet _ _ _ _
      rw [answerPassSet, answerPassSet, if_pos hs, if_pos hs,
        readPasswords_inside he _ (hin hs)]
      rfl
    · show answerPassSet _ _ _ _ = answerPassSet _ _ _ _
      rw [answerPassSet, answerPassSet, if_neg hs, if_neg hs]

/-- A complete segment has the effect of every request it begins. -/
theorem HttpCall.Complete.whole (h : x.Complete s) (v b : List UInt8) :
    (httpStep s { x with
      p := some (x.payload ++ v)
      env := { x.env with behind := b } }).res = (httpStep s x).res := by
  have hreq : HttpCall.request { x with
      p := some (x.payload ++ v)
      env := { x.env with behind := b } } = x.request := by
    show requestOf (x.payload ++ v ++ b) = _
    rw [List.append_assoc, h.request]
  rcases hr : x.request with - | r
  · rw [hr] at hreq
    rw [(httpStep_of_none hreq).1, (httpStep_of_none hr).1]
  · rw [hr] at hreq
    rw [httpStep_of_request hreq, httpStep_of_request hr]
    dsimp only
    rw [h.answer hr]

/-- **A request that is cut.**  If the first segment is complete and no later
one, with the memory behind it, is a request of its own, the segments leave
the state that the request leaves in one piece, whatever lies behind it. -/
theorem segmentation {s : Httpd} {x : HttpCall} {ys : List HttpCall}
    (behind : List UInt8) (hx : x.Complete s)
    (hys : ∀ y ∈ ys, y.request = none ∨ y.request = some .root) :
    (run httpStep s (x :: ys)).res =
      (httpStep s { x with
        p := some (x.payload ++ ys.flatMap HttpCall.payload)
        env := { x.env with behind } }).res := by
  rw [hx.whole _ behind, run_cons, Traced.bind_res]
  rcases (httpStep s x).res with - | t
  · rfl
  · exact run_idle hys t

/-- A login, cut behind the space that ends the password. -/
def cutLogin : HttpCall := .ofString 1 "GET /pass_sent.cgi?password=pw "

theorem cutLogin_complete : cutLogin.Complete (.boot flashWithPassword) where
  isSome := rfl
  decided := by intro r; cases r <;> decide
  inside := by
    intro r hr
    obtain rfl : r = .passSent := by
      have hreq : cutLogin.request = some .passSent := by decide +kernel
      exact Option.some.inj (hr.symm.trans hreq)
    show findSpace _ _ _ < _
    decide +kernel

theorem segmentation_cutLogin :
    (run httpStep (.boot flashWithPassword)
        [cutLogin, .ofString 1 "HTTP/1.0\r\n"]).res =
      (httpStep (.boot flashWithPassword) { cutLogin with
        p := some (bytesOf "GET /pass_sent.cgi?password=pw HTTP/1.0\r\n")
        env := { cutLogin.env with behind := [] } }).res :=
  segmentation [] cutLogin_complete
    (by rintro _ (_ | ⟨_, ⟨⟩⟩); exact Or.inl rfl)

/-- What a request brings about: the login state, the contents of the flash and
whether a reset is scheduled. -/
def Httpd.outcome (s : Httpd) : HttpState × FlashImage × Bool :=
  (s.st, s.flash, s.sysresetReq != 0)

/-- In general the segments do not do what the request does: behind a login, a
configuration that is cut in the octet 10 stores the octet 1. -/
theorem not_segmentation :
    ¬ ∀ (i : FlashImage) (xs : List HttpCall) (x : HttpCall)
      (ms : List (List UInt8)),
      (run httpStep (.boot i)
          (xs ++ ms.map fun m => { x with p := some m })).res.map
            Httpd.outcome =
        (run httpStep (.boot i)
          (xs ++ [{ x with p := some ms.flatten }])).res.map Httpd.outcome := by
  intro h
  have hcut := congrArg (Option.map fun o => o.2.1.addresses.ipLocal)
    (h flashWithPassword [.ofString 1 "GET /pass_sent.cgi?password=pw "]
      (.ofString 1 "")
      [bytesOf "GET /ip_set.cgi?ip_local1=1", bytesOf "0 HTTP/1.0"])
  exact absurd hcut (by decide +kernel)

end Roip
