/-
Roip/Configuration.lean

The form of the configuration and its submission.

The server writes the five addresses as twenty octets into a form
(`submission_setup`) and reads them back from the query a browser makes of it.
The reader knows the names of the fields only by their number and by the
length of the first one: it starts at index 26 and goes from `=` to `=`.  What
it reads is what has been written (`configuration_round_trip`), for any
addresses.
-/
import Roip.Login

namespace Roip

/-! ### The query of a form -/

/-- What a browser makes of the names and values of the fields of a form. -/
def query : List (List UInt8 × List UInt8) → List UInt8
  | [] => []
  | [f] => f.1 ++ 61 :: f.2
  | f :: fs => f.1 ++ 61 :: (f.2 ++ 38 :: query fs)

/-- The names and values of the fields of the form. -/
def formFields (a : Addresses) : List (List UInt8 × List UInt8) :=
  (renderedFields a).map fun f => (bytesOf f.1.name, f.2)

/-- The form with the addresses `a`, submitted unchanged. -/
def formRequest (a : Addresses) : List UInt8 :=
  bytesOf "GET /ip_set.cgi?" ++ query (formFields a)

/-- The value of a field, the fields behind it and the rest of the request. -/
def queryFrom (o : UInt8) :
    List (FormField × UInt8) → List UInt8 → List UInt8
  | [], z => decimal o.toNat ++ z
  | f :: fs, z =>
    decimal o.toNat ++ 38 :: (bytesOf f.1.name ++ 61 :: queryFrom f.2 fs z)

/-- A field with its octet rendered. -/
def renderField (f : FormField × UInt8) : List UInt8 × List UInt8 :=
  (bytesOf f.1.name, decimal f.2.toNat)

theorem renderedFields_eq (a : Addresses) :
    renderedFields a = (ipForm.zip a.octets).map fun f =>
      (f.1, decimal f.2.toNat) := by
  rw [renderedFields, List.zip_map_right]
  rfl

theorem formFields_eq (a : Addresses) :
    formFields a = (ipForm.zip a.octets).map renderField := by
  rw [formFields, renderedFields_eq, List.map_map]
  rfl

theorem query_render (f : FormField × UInt8) (fs : List (FormField × UInt8))
    (z : List UInt8) :
    query ((f :: fs).map renderField) ++ z =
      bytesOf f.1.name ++ 61 :: queryFrom f.2 fs z := by
  induction fs generalizing f with
  | nil =>
    show bytesOf f.1.name ++ 61 :: decimal f.2.toNat ++ z = _
    rw [List.append_assoc]
    rfl
  | cons g gs ih =>
    show bytesOf f.1.name ++
      61 :: (decimal f.2.toNat ++ 38 :: query ((g :: gs).map renderField)) ++
      z = _
    rw [List.append_assoc, List.cons_append, List.append_assoc,
      List.cons_append, ih]
    rfl

/-! ### The form in the page -/

/-- The fields of a page, which has been split at its quotes: each `value`
goes with the last `name` in front of it. -/
def fieldsOf : Option (List UInt8) → List (List UInt8) →
    List (List UInt8 × List UInt8)
  | name, before :: inside :: rest =>
    if before = bytesOf " name=" then fieldsOf (some inside) rest
    else if before = bytesOf " value=" then
      name.toList.map (·, inside) ++ fieldsOf none rest
    else fieldsOf name rest
  | _, _ => []

/-- Where the first form of a page is sent to. -/
def actionOf : List (List UInt8) → List UInt8
  | before :: inside :: rest =>
    if (bytesOf "<form action=").isSuffixOf before then inside
    else actionOf rest
  | _ => []

/-- What a browser sends when the form of a page is submitted unchanged. -/
def submission (page : List UInt8) : List UInt8 :=
  bytesOf "GET /" ++ actionOf (page.splitOn 34) ++
    63 :: query (fieldsOf none (page.splitOn 34))

theorem splitOn_quote {x : List UInt8} (hx : 34 ∉ x) (s : List UInt8) :
    (x ++ 34 :: s).splitOn 34 = x :: s.splitOn 34 := by
  rw [List.splitOn_eq_splitOnP, List.splitOn_eq_splitOnP]
  refine List.splitOnP_append_cons_of_forall_mem (fun b hb => ?_) 34 rfl s
  rw [beq_eq_false_iff_ne]
  rintro rfl
  exact hx hb

/-- A field with this name, cut at its quotes, with `z` for its value and
what is behind it. -/
def inputText (name z : List UInt8) : List UInt8 :=
  bytesOf "<input type=" ++ 34 :: (bytesOf "text" ++ 34 ::
    (bytesOf " name=" ++ 34 :: (name ++ 34 :: (bytesOf " maxlength=" ++ 34 ::
      (bytesOf "3" ++ 34 :: (bytesOf " size=" ++ 34 :: (bytesOf "3" ++ 34 ::
        (bytesOf " value=" ++ 34 :: z))))))))

theorem FormField.text_append (f : FormField) (z : List UInt8) :
    f.text ++ z = bytesOf f.lead ++ inputText (bytesOf f.name) z := by
  have hopen : bytesOf "<input type=\"text\" name=\"" =
      bytesOf "<input type=" ++ 34 :: (bytesOf "text" ++ 34 ::
        (bytesOf " name=" ++ [34])) := by decide
  have hclose : bytesOf "\" maxlength=\"3\" size=\"3\" value=\"" =
      34 :: (bytesOf " maxlength=" ++ 34 :: (bytesOf "3" ++ 34 ::
        (bytesOf " size=" ++ 34 :: (bytesOf "3" ++ 34 ::
          (bytesOf " value=" ++ [34]))))) := by decide
  rw [FormField.text, hopen, hclose, inputText]
  simp only [List.append_assoc, List.cons_append, List.nil_append]

/-- A field is read up to the beginning of its value. -/
theorem fieldsOf_text {l name : List UInt8} (hl : 34 ∉ l) (hname : 34 ∉ name)
    (z : List UInt8) :
    fieldsOf none ((l ++ inputText name z).splitOn 34) =
      fieldsOf (some name) (bytesOf " value=" :: z.splitOn 34) := by
  have hinput : 34 ∉ l ++ bytesOf "<input type=" := by
    rw [List.mem_append, not_or]
    exact ⟨hl, by decide⟩
  have hlong (s : List UInt8) (hs : s.length < 12) :
      l ++ bytesOf "<input type=" ≠ s := by
    rintro rfl
    rw [List.length_append] at hs
    have : (bytesOf "<input type=").length = 12 := by decide
    omega
  rw [inputText, ← List.append_assoc, splitOn_quote hinput,
    splitOn_quote (by decide), splitOn_quote (by decide), splitOn_quote hname,
    splitOn_quote (by decide), splitOn_quote (by decide),
    splitOn_quote (by decide), splitOn_quote (by decide),
    splitOn_quote (by decide)]
  have hsize : bytesOf " size=" ≠ bytesOf " name=" ∧
      bytesOf " size=" ≠ bytesOf " value=" := by decide
  have hmax : bytesOf " maxlength=" ≠ bytesOf " name=" ∧
      bytesOf " maxlength=" ≠ bytesOf " value=" := by decide
  rw [fieldsOf, if_neg (hlong _ (by decide)), if_neg (hlong _ (by decide)),
    fieldsOf, if_pos rfl, fieldsOf, if_neg hmax.1, if_neg hmax.2, fieldsOf,
    if_neg hsize.1, if_neg hsize.2]

/-- The value of a field is read up to the next quote. -/
theorem fieldsOf_value {name v : List UInt8} (hv : 34 ∉ v) (z : List UInt8) :
    fieldsOf (some name) (bytesOf " value=" :: (v ++ 34 :: z).splitOn 34) =
      (name, v) :: fieldsOf none (z.splitOn 34) := by
  rw [splitOn_quote hv, fieldsOf, if_neg (by decide), if_pos rfl]
  rfl

theorem quote_notMem_decimal (n : Nat) : 34 ∉ decimal n := fun h =>
  absurd (isdigit_of_mem_decimal h) (by decide)

/-- What stands behind the last value. -/
def formEnd : List UInt8 := pgFormTail ++ pgChangePassReq ++ pgTail

/-- The fields that follow the value `v`. -/
theorem fieldsOf_fields {fs : List (FormField × UInt8)}
    (hfs : ∀ f ∈ fs, (∃ l, bytesOf f.1.lead = 34 :: l ∧ 34 ∉ l) ∧
      34 ∉ bytesOf f.1.name) {name v : List UInt8} (hv : 34 ∉ v) :
    fieldsOf (some name) (bytesOf " value=" ::
      (v ++ (fs.flatMap (fun f => f.1.text ++ decimal f.2.toNat) ++
        formEnd)).splitOn 34) = (name, v) :: fs.map renderField := by
  induction fs generalizing name v with
  | nil =>
    have hend : formEnd = 34 :: formEnd.tail := by decide
    have hnone : fieldsOf none (formEnd.tail.splitOn 34) = [] := by decide
    rw [List.flatMap_nil, List.nil_append, hend, fieldsOf_value hv, hnone]
    rfl
  | cons f fs ih =>
    rw [List.forall_mem_cons] at hfs
    obtain ⟨⟨⟨l, hlead, hl⟩, hname⟩, hrest⟩ := hfs
    rw [List.flatMap_cons, List.append_assoc, List.append_assoc,
      f.1.text_append, hlead, List.cons_append, fieldsOf_value hv,
      fieldsOf_text hl hname, ih hrest (quote_notMem_decimal _)]
    rfl

/-- The fields of the form and their octets. -/
theorem zip_octets (a : Addresses) : ipForm.zip a.octets =
    (⟨"<form action=\"ip_set.cgi\"> \t\tLocal IP address: ", "ip_local1"⟩,
      a.ipLocal.toUInt8) :: ipForm.tail.zip a.octets.tail := rfl

theorem tail_leads : ∀ f ∈ ipForm.tail,
    bytesOf f.lead = 34 :: (bytesOf f.lead).tail ∧
      34 ∉ (bytesOf f.lead).tail ∧ 34 ∉ bytesOf f.name := by decide

/-- **The page holds the form** whose submission is read back. -/
theorem submission_setup (a : Addresses) :
    submission (Page.text (.setup a)) = formRequest a := by
  have hfields (f : FormField × UInt8)
      (hf : f ∈ ipForm.tail.zip a.octets.tail) :
      (∃ l, bytesOf f.1.lead = 34 :: l ∧ 34 ∉ l) ∧ 34 ∉ bytesOf f.1.name := by
    obtain ⟨hlead, hl, hname⟩ := tail_leads f.1 (List.of_mem_zip hf).1
    exact ⟨⟨_, hlead, hl⟩, hname⟩
  have hlead : bytesOf "<form action=\"ip_set.cgi\"> \t\tLocal IP address: " =
      bytesOf "<form action=" ++ 34 :: (bytesOf "ip_set.cgi" ++
        34 :: bytesOf "> \t\tLocal IP address: ") := by decide
  have hopen : 34 ∉ pgHeader ++ bytesOf "<form action=" := by decide
  -- the page up to the first value, and the other fields behind it
  have hpage : Page.text (.setup a) =
      (pgHeader ++ bytesOf "<form action=") ++ 34 :: (bytesOf "ip_set.cgi" ++
        34 :: (bytesOf "> \t\tLocal IP address: " ++
          inputText (bytesOf "ip_local1") (decimal a.ipLocal.toUInt8.toNat ++
            ((ipForm.tail.zip a.octets.tail).flatMap
              (fun f => f.1.text ++ decimal f.2.toNat) ++ formEnd)))) := by
    rw [Page.text, renderedFields_eq, List.flatMap_map, zip_octets,
      List.flatMap_cons, formEnd]
    simp only [List.append_assoc]
    rw [FormField.text_append, hlead]
    simp only [List.append_assoc, List.cons_append]
  rw [submission, hpage, splitOn_quote hopen, splitOn_quote (by decide),
    actionOf, if_pos (by decide), fieldsOf, if_neg (by decide),
    if_neg (by decide), fieldsOf_text (by decide) (by decide),
    fieldsOf_fields hfields (quote_notMem_decimal _), formRequest,
    formFields_eq, zip_octets]
  have hget : bytesOf "GET /" ++ bytesOf "ip_set.cgi" ++ [63] =
      bytesOf "GET /ip_set.cgi?" := by decide
  rw [← hget, List.append_assoc _ [63], List.map_cons, List.singleton_append,
    renderField]

/-! ### Reading it back -/

theorem octet_of_strtoul (o : UInt8) :
    (UInt32.ofNat o.toNat &&& 0xFF).toUInt8 = o := by
  have ho := o.toNat_lt
  have h255 : (0xFF : UInt32).toNat = 2 ^ 8 - 1 := rfl
  rw [← UInt8.toNat_inj, UInt32.toNat_toUInt8, UInt32.toNat_and,
    UInt32.toNat_ofNat', h255, Nat.and_two_pow_sub_one_eq_mod]
  omega

/-- Reading one value: what is behind it is no digit. -/
theorem strtoul_value {w b y : List UInt8} {o c : UInt8} {p : Nat}
    (hc : isdigit c = false) (h : w.drop p = decimal o.toNat ++ c :: y) :
    strtoul ((w ++ b).drop p) =
      (UInt32.ofNat o.toNat, (decimal o.toNat).length) := by
  have hp : p ≤ w.length := by
    by_contra hlt
    rw [List.drop_of_length_le (by omega)] at h
    cases (List.append_eq_nil_iff.mp h.symm).2
  rw [List.drop_append_of_le_length hp, h, List.append_assoc]
  refine strtoul_decimal (Nat.lt_trans o.toNat_lt (by decide)) ?_
  intro d hd
  cases hd
  exact hc

/-- The octets are read from the values, whatever the names are, as long as
there is no `=` in them. -/
theorem readOctets_queryFrom {w b z : List UInt8} {o c : UInt8} {p : Nat}
    {fs : List (FormField × UInt8)}
    (hnames : ∀ f ∈ fs, 61 ∉ bytesOf f.1.name) (hc : isdigit c = false)
    (hw : w.drop p = queryFrom o fs (c :: z)) :
    readOctets (w ++ b) w.length (fs.length + 1) p = o :: fs.map Prod.snd := by
  induction fs generalizing o p with
  | nil =>
    rw [readOctets, strtoul_value hc hw]
    exact congrArg (· :: []) (octet_of_strtoul o)
  | cons f fs ih =>
    have hamp := drop_of_append hw
    have hname : w.drop (p + (decimal o.toNat).length + 1) =
        bytesOf f.1.name ++ 61 :: queryFrom f.2 fs (c :: z) :=
      drop_of_append (x := [38]) hamp
    have hnext : w.drop (p + (decimal o.toNat).length + 1 +
        (bytesOf f.1.name).length + 1) = queryFrom f.2 fs (c :: z) :=
      drop_of_append (x := [61]) (drop_of_append hname)
    -- the search passes the name of the next field
    have hfind : findEquals (w ++ b) w.length
        (p + (decimal o.toNat).length) =
        p + (decimal o.toNat).length + 1 + (bytesOf f.1.name).length := by
      rw [findEquals, find_payload, takeWhile_ne_of_split hname
        (hnames f List.mem_cons_self)]
    rw [readOctets, strtoul_value (by rfl) hw]
    dsimp only
    rw [hfind, octet_of_strtoul, List.length_cons,
      ih (fun g hg => hnames g (List.mem_cons_of_mem f hg)) hnext]
    rfl

/-- The first value of the form stands at index 26. -/
theorem formRequest_drop (a : Addresses) (z : List UInt8) :
    (formRequest a ++ z).drop 26 = queryFrom a.ipLocal.toUInt8
      (ipForm.tail.zip a.octets.tail) z := by
  have hline (y : List UInt8) : bytesOf "GET /ip_set.cgi?" ++
      (bytesOf "ip_local1" ++ 61 :: y) =
      (bytesOf "GET /ip_set.cgi?" ++ (bytesOf "ip_local1" ++ [61])) ++ y := by
    simp only [List.append_assoc, List.cons_append, List.nil_append]
  rw [formRequest, List.append_assoc, formFields_eq, zip_octets, query_render]
  show (bytesOf "GET /ip_set.cgi?" ++ (bytesOf "ip_local1" ++ 61 :: _)).drop 26 =
    _
  rw [hline]
  exact List.drop_left' (by decide)

/-- **What is submitted is what is read.** -/
theorem readAddresses_formRequest (a : Addresses) {c : UInt8}
    (hc : isdigit c = false) (z b : List UInt8) :
    readAddresses (formRequest a ++ c :: z ++ b)
      (formRequest a ++ c :: z).length = a := by
  have hnames : ∀ f ∈ ipForm.tail.zip a.octets.tail,
      61 ∉ bytesOf f.1.name := by
    have hform : ∀ f ∈ ipForm.tail, 61 ∉ bytesOf f.name := by decide
    intro f hf
    exact hform f.1 (List.of_mem_zip hf).1
  have hread := readOctets_queryFrom (b := b) hnames hc
    (formRequest_drop a (c :: z))
  have hsnd : (ipForm.tail.zip a.octets.tail).map Prod.snd = a.octets.tail :=
    List.map_snd_zip (Nat.le_of_eq rfl)
  rw [hsnd] at hread
  rw [readAddresses]
  have hoctets : readOctets (formRequest a ++ c :: z ++ b)
      (formRequest a ++ c :: z).length 20 26 = a.octets ++ [] := hread
  rw [hoctets, addressesAt_octets]

/-- The answer to a login shows the form with the addresses in use. -/
theorem setupPage_of_accepted {s : Httpd} {x : HttpCall} (h : x.Accepted s) :
    .write x.pcb (.setup s.net) ∈ (httpStep s x).out := by
  rw [httpStep_of_request h.1, answer_passSent, if_pos h.2]
  simp [closing]

/-- **The configuration makes the round trip.**  For any addresses `a`: an
accepted login shows them in a form, whose submission is `formRequest a`, and
this request in the state `PASS_SENT` stores exactly these addresses and
leaves the rest of the configuration as it is.  If the IAP commands succeed
the flash holds the result. -/
theorem configuration_round_trip {s : Httpd} {x : HttpCall} {a : Addresses}
    {headers : List UInt8} (hs : s.st = .passSent)
    (hx : x.p = some (formRequest a ++ bytesOf " HTTP/" ++ headers)) :
    (∀ s₀ y, s₀.net = a → y.Accepted s₀ →
      .write y.pcb (.setup a) ∈ (httpStep s₀ y).out) ∧
    submission (Page.text (.setup a)) = formRequest a ∧
    ∃ t, (httpStep s x).res = some t ∧ t.flashBuff.addresses = a ∧
      t.flashBuff.macAddress = s.flashBuff.macAddress ∧
      t.flashBuff.password = s.flashBuff.password ∧
      (x.env.iap.erase = 0 → x.env.iap.copy = 0 → t.flash = t.flashBuff) := by
  have hpayload : x.payload = formRequest a ++ 32 ::
      (bytesOf "HTTP/" ++ headers) := by
    rw [HttpCall.payload, hx, Option.getD_some, List.append_assoc]
    rfl
  have haddr : x.addresses = a := by
    rw [HttpCall.addresses, HttpCall.rq, hpayload]
    exact readAddresses_formRequest a rfl _ _
  have hline : Request.ipSet.line <+: bytesOf "GET /ip_set.cgi?" := by decide
  have hform : bytesOf "GET /ip_set.cgi?" <+: formRequest a :=
    List.prefix_append _ _
  have hreq : x.request = some .ipSet := HttpCall.request_of_prefix hx
    (((hline.trans hform).trans (List.prefix_append _ _)).trans
      (List.prefix_append _ _))
  obtain ⟨b, hb, hcells⟩ := s.flashBuff.storeAddresses_cells x.addresses
  -- MAC address and password lie behind the twenty octets
  have hrest : b.cells.drop 20 = s.flashBuff.cells.drop 20 := by
    rw [hcells, List.drop_left' x.addresses.octets_length]
  have hres : (httpStep s x).res = some
      { s with
        st := .configChanged
        flashBuff := b
        flash := (writeFlash b s.flash x.env.iap).2
        sysresetReq := x.env.now } := by
    rw [httpStep_of_request hreq, answer_ipSet hs hb]
    rfl
  refine ⟨?_, submission_setup a, ?_⟩
  · rintro s₀ y rfl hy
    exact setupPage_of_accepted hy
  · refine ⟨_, hres, ?_, FlashImage.macAddress_congr hrest,
      FlashImage.password_congr hrest, ?_⟩
    · rw [← haddr]
      exact FlashImage.addresses_of_cells hcells
    · intro he hc
      exact writeFlash_success he hc b s.flash

/-- The default addresses, submitted by a client that has logged in. -/
theorem configuration_round_trip_defaults :
    ∃ t, (httpStep { Httpd.boot erased with st := .passSent }
        { HttpCall.ofString 1 "" with
          p := some (formRequest defaultAddresses ++ bytesOf " HTTP/" ++
            bytesOf "1.0\r\n") }).res = some t ∧
      t.flashBuff.addresses = defaultAddresses :=
  (configuration_round_trip (s := { Httpd.boot erased with st := .passSent })
    rfl rfl).2.2.imp fun _ h => ⟨h.1, h.2.1⟩

end Roip
