/-
Roip/Pages.lean

The pages of the web server, `httpd.c`.

The page with the configuration is a form of twenty text fields, one for each
octet of the five addresses.  The texts `pg_form0` to `pg_form19` in front of
the fields differ in what leads over from the last field and in the name
(`ipForm`).
-/
import Roip.Flash
import Roip.Lib.Numeral

namespace Roip

/-! ### The texts -/

def pgHeader : List UInt8 :=
  bytesOf "HTTP/1.0 200 OK\r\nContent-type: text/html\r\n\r\n" ++
    bytesOf "<html> <head><title>Network</title></head> <body> " ++
    bytesOf "<h2><b> The current network configuration </b></h2>"

/-- A password field. -/
def passField (name : String) : List UInt8 :=
  bytesOf "<input type=\"password\" name=\"" ++ bytesOf name ++
    bytesOf "\" maxlength=\"15\" size=\"15\" value=\""

def pgFormPass : List UInt8 :=
  bytesOf "<form action=\"pass_sent.cgi\"> \t\tEnter password: " ++
    passField "password"

/-- A text field: what stands in front of it, and its name. -/
structure FormField where
  lead : String
  name : String

/-- `pg_form0` to `pg_form19`. -/
def ipForm : List FormField := [
  ⟨"<form action=\"ip_set.cgi\"> \t\tLocal IP address: ", "ip_local1"⟩,
  ⟨"\">", "ip_local2"⟩, ⟨"\">", "ip_local3"⟩, ⟨"\">", "ip_local4"⟩,
  ⟨"\"><br>\t\tGateway IP address: ", "ip_gateway1"⟩,
  ⟨"\">", "ip_gateway2"⟩, ⟨"\">", "ip_gateway3"⟩, ⟨"\">", "ip_gateway4"⟩,
  ⟨"\"><br>\t\tNetwork mask: ", "ip_nm1"⟩,
  ⟨"\">", "ip_nm2"⟩, ⟨"\">", "ip_nm3"⟩, ⟨"\">", "ip_nm4"⟩,
  ⟨"\"><br>\t\tServer 1: ", "ip_server11"⟩,
  ⟨"\">", "ip_server12"⟩, ⟨"\">", "ip_server13"⟩, ⟨"\">", "ip_server14"⟩,
  ⟨"\"><br>\t\tServer 2: ", "ip_server21"⟩,
  ⟨"\">", "ip_server22"⟩, ⟨"\">", "ip_server23"⟩, ⟨"\">", "ip_server24"⟩]

/-- The text in front of the value of a field. -/
def FormField.text (f : FormField) : List UInt8 :=
  bytesOf f.lead ++ bytesOf "<input type=\"text\" name=\"" ++ bytesOf f.name ++
    bytesOf "\" maxlength=\"3\" size=\"3\" value=\""

def pgChangePassReq : List UInt8 := bytesOf
  "<br><br><a href=\"change_pass.cgi\">Change password</a>"

def pgFormPassChange : List UInt8 := bytesOf "<form action=\"pass_set.cgi\">"

/-- `pg_form22`, `pg_form20` and `pg_form21`. -/
def passForm : List UInt8 :=
  bytesOf "<br>\t\tOld password: " ++ passField "old_password" ++
    bytesOf "\"><br>\t\tNew password: " ++ passField "new_password" ++
    bytesOf "\"><br>\t\tConfirm new password: " ++
    passField "confirm_password"

def pgChangedConfiguration : List UInt8 := bytesOf
  "<p>Please wait, chip is going to reset.</p>"

def pgWrongPassword : List UInt8 := bytesOf
  "<p>You've just entered the wrong password!</p>"

def pgChangePasswordUnsuccessful : List UInt8 := bytesOf
  "<p>There was an error changing password!</p>"

def pgChangedPassword : List UInt8 := bytesOf
  "<p>Password has been changed.</p>"

def pgFormTail : List UInt8 := bytesOf
  "\"><br>\t\t<input type=\"submit\" value=\"APPLY\">\t\t</form>"

def pgTail : List UInt8 := bytesOf "</body> </html>"

/-! ### The pages -/

/-- The fields of the form, each with the octet rendered in it. -/
def renderedFields (a : Addresses) : List (FormField × List UInt8) :=
  ipForm.zip (a.octets.map fun o => decimal o.toNat)

inductive Page
  /-- asks for the password -/
  | login
  /-- shows the configuration -/
  | setup (a : Addresses)
  | changedConfiguration
  | wrongPassword
  /-- asks for a new password -/
  | changePass
  | changedPassword
  | changePasswordUnsuccessful
deriving DecidableEq, Repr

/-- What is put together in `outdata`. -/
def Page.text : Page → List UInt8
  | .login => pgHeader ++ pgFormPass ++ pgFormTail ++ pgTail
  | .setup a =>
    pgHeader ++ (renderedFields a).flatMap (fun f => f.1.text ++ f.2) ++
      pgFormTail ++ pgChangePassReq ++ pgTail
  | .changedConfiguration => pgHeader ++ pgChangedConfiguration ++ pgTail
  | .wrongPassword => pgHeader ++ pgWrongPassword ++ pgTail
  | .changePass =>
    pgHeader ++ pgFormPassChange ++ passForm ++ pgFormTail ++ pgTail
  | .changedPassword => pgHeader ++ pgChangedPassword ++ pgTail
  | .changePasswordUnsuccessful =>
    pgHeader ++ pgChangePasswordUnsuccessful ++ pgTail

end Roip
