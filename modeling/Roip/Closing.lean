/-
Roip/Closing.lean

The life cycle of a connection to the web server.

Every answer ends with `tcp_close`.  A segment that is not answered leaves the
connection open, and so does the call that says that the remote end has closed
it.  So when that call has returned, `tcp_close` has been called exactly if an
earlier segment of the connection has been answered (`closed_iff`).
-/
import Roip.Requests

namespace Roip

variable {s t : Httpd} {x : HttpCall}

/-- A call closes its own connection, and only to answer a request. -/
theorem request_of_close_mem {pcb : TcpPcb}
    (h : .close pcb ∈ (httpStep s x).out) :
    x.pcb = pcb ∧ x.request ≠ none := by
  rcases hr : x.request with - | r
  · rcases (httpStep_of_none hr).2 _ h with hc | hc <;> cases hc
  · refine ⟨?_, Option.some_ne_none r⟩
    have hans : .close pcb ∉ (x.answer s r).out := not_mem_answer rfl
    rw [httpStep_of_request hr, List.mem_cons, List.mem_append] at h
    rcases h with hc | hc | hc
    · cases hc
    · exact absurd hc hans
    · rcases e : (x.answer s r).res with - | a
      · rw [e] at hc
        cases hc
      · rw [e, Option.elim_some] at hc
        simp [closing] at hc
        exact hc.symm

/-- A call that answers a request and returns has closed its connection. -/
theorem close_mem_of_request {r : Request} {o : List HttpAct}
    (h : httpStep s x = ⟨o, some t⟩) (hr : x.request = some r) :
    .close x.pcb ∈ o := by
  rw [httpStep_of_request hr] at h
  obtain ⟨rfl, hres⟩ := Traced.mk.inj h
  obtain ⟨a, ha, -⟩ := Option.map_eq_some_iff.mp hres
  rw [ha, Option.elim_some]
  exact List.mem_cons_of_mem _ (List.mem_append_right _ (by simp [closing]))

/-- **When a closed connection is closed.**  After the call for the end of a
connection, `tcp_close` has been called for it if and only if an earlier
segment of the connection has been answered. -/
theorem closed_iff {s t : Httpd} {pre : List HttpCall} {x : HttpCall}
    {o : List HttpAct} (hr : run httpStep s pre = ⟨o, some t⟩)
    (hx : x.p = none) :
    .close x.pcb ∈ (run httpStep s (pre ++ [x])).out ↔
      ∃ y ∈ pre, y.pcb = x.pcb ∧ y.request ≠ none := by
  have hend : httpStep t x = pure t := by
    rw [httpStep, hx]
    rfl
  have hrun : (run httpStep s (pre ++ [x])).out = (run httpStep s pre).out := by
    rw [run_concat, hr, Traced.mk_bind, hend]
    exact List.append_nil o
  rw [hrun]
  constructor
  · intro hclose
    obtain ⟨_, u, y, ⟨a, b, rfl, -⟩, hy⟩ := exists_feeds_of_mem_out hclose
    exact ⟨y, List.mem_append_right a List.mem_cons_self,
      request_of_close_mem hy⟩
  · rintro ⟨y, hy, hpcb, hreq⟩
    obtain ⟨_, u, o₂, u', hf, hret⟩ := feeds_of_mem hr hy
    obtain ⟨r, hyr⟩ := Option.ne_none_iff_exists'.mp hreq
    refine hf.mem_out ?_
    rw [hret, ← hpcb]
    exact close_mem_of_request hret hyr

/-- The call for the end of the connection of `x`. -/
def HttpCall.hangUp (x : HttpCall) : HttpCall := { x with p := none }

theorem closed_iff_root :
    .close ⟨0, 1⟩ ∈ (run httpStep (.boot erased)
      ([.ofString 1 "GET / HTTP/1.0"] ++
        [(HttpCall.ofString 1 "").hangUp])).out :=
  (closed_iff (x := (HttpCall.ofString 1 "").hangUp)
    (Traced.eq_mk_of_res (a := .boot erased) (by decide +kernel)) rfl).mpr
    ⟨_, List.mem_singleton_self _, rfl, by decide⟩

/-- A connection with an unknown request stays open when its client has
gone. -/
theorem not_always_closed :
    ¬ ∀ s pre x o t, run httpStep s pre = ⟨o, some t⟩ → x.p = none →
      .close x.pcb ∈ (run httpStep s (pre ++ [x])).out := by
  intro h
  refine absurd (h (.boot erased) [.ofString 1 "GET /favicon.ico HTTP/1.0"]
    (HttpCall.ofString 1 "").hangUp _ (.boot erased)
    (Traced.eq_mk_of_res (by decide +kernel)) rfl) ?_
  decide +kernel

end Roip
