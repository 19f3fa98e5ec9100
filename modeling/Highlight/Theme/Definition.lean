import Highlight.Json.Decode

/-!
# Themes as written

A theme is a list of settings. A setting gives a style – font style and colours, each of them
optional – to some scopes, written as one text or as a list of texts. A setting without scopes
is about the text that no other setting is about.
-/

namespace Highlight.Theme

/-- The scopes of a setting, as written. -/
inductive ScopeText where
  /-- One text, with commas between scopes. -/
  | one (text : String)
  /-- A text for each scope. -/
  | many (texts : List String)
  deriving Repr

/-- The style of a setting, as written. -/
structure StyleText where
  /-- Names of font styles. -/
  fontStyle : Option String := none
  /-- The foreground colour. -/
  foreground : Option String := none
  /-- The background colour. -/
  background : Option String := none
  deriving Repr

/-- A setting, as written. -/
structure Setting where
  /-- A name for people. -/
  name : Option String := none
  /-- The scopes. -/
  scope : Option ScopeText := none
  /-- The style. A setting without one counts for nothing. -/
  style : Option StyleText := none
  deriving Repr

/-- **A theme as written.** -/
structure Definition where
  /-- A name for people. -/
  name : Option String := none
  /-- The settings, in order. -/
  settings : List Setting := []
  deriving Repr

open Json (Decoder)
open Json.Decoder (field)

/-- Scopes are a text or a list of texts. -/
def ScopeText.decoder : Decoder ScopeText :=
  .oneOf "RawScope"
    [fun room v => (Decoder.string room v).map .one,
     fun room v => (Decoder.list .string room v).map .many]

/-- The style of a setting. -/
def StyleText.decoder : Decoder StyleText :=
  .record "RawStyleSettings"
    [field "fontStyle" (.optional .string) (fun r x => { r with fontStyle := x }),
     field "foreground" (.optional .string) (fun r x => { r with foreground := x }),
     field "background" (.optional .string) (fun r x => { r with background := x })]
    {}

/-- A setting. -/
def Setting.decoder : Decoder Setting :=
  .record "RawThemeSetting"
    [field "name" (.optional .string) (fun r x => { r with name := x }),
     field "scope" (.optional ScopeText.decoder) (fun r x => { r with scope := x }),
     field "settings" (.optional StyleText.decoder) (fun r x => { r with style := x })]
    {}

/-- A theme. Its settings go by either of two names. -/
def Definition.decoder : Decoder Definition :=
  .record "RawTheme"
    [field "name" (.optional .string) (fun r x => { r with name := x }),
     { field "settings" (.list Setting.decoder) (fun r x => { r with settings := x }) with
       aliases := ["tokenColors"] }]
    {}

/-- **Reads a theme.** -/
def Definition.ofText (text : String) : Except Json.Error Definition :=
  Json.decodeText decoder text

end Highlight.Theme
