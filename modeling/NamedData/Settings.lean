import NamedData.Name.Uri
import NamedData.Serial.Forms
import NamedData.Telemetry.Event
import NamedData.Text.Blank
import NamedData.Toml.Document

namespace NamedData

open Serial

inductive LogFormat
  | json
  | pretty
  deriving DecidableEq

structure IndexSettings where
  /-- The URI form of the component that stands for this repository in names of listings. -/
  responder : String
  /-- The end of the order of names preferred by Interests that name none. -/
  selector : Selector
  deriving DecidableEq

structure TelemetrySettings where
  logFilter : String
  logFormat : LogFormat
  metrics : Bool
  deriving DecidableEq

structure Settings where
  index : IndexSettings
  telemetry : TelemetrySettings
  deriving DecidableEq

/-- Why a document holds no usable settings. -/
inductive SettingsError
  | unreadable
  | malformed
  | badResponder (cause : NameError)
  | blankLogFilter
  deriving DecidableEq

namespace SettingsError

def code : SettingsError → String
  | unreadable => "CONFIG_IO"
  | malformed => "CONFIG_PARSE"
  | badResponder _ | blankLogFilter => "CONFIG_INVALID"

def message? : SettingsError → Option String
  | badResponder cause => some ("Invalid config value for `index.responder_id`: " ++ cause.message)
  | blankLogFilter => some "Invalid config value for `telemetry.log_filter`: must not be empty"
  | _ => none

end SettingsError

namespace LogFormat

def label : LogFormat → String
  | json => "json"
  | pretty => "pretty"

def labels : List (String × LogFormat) := [json, pretty].map fun f => (f.label, f)

def toValue (f : LogFormat) : Value := .text f.label

def ofValue? (d : Dialect) : Value → Option LogFormat := Value.constant? d labels

end LogFormat

namespace IndexSettings

def default : IndexSettings := ⟨"nrepo", .leftmost⟩

def toValue (s : IndexSettings) : Value :=
  .record [("responder_id", .text s.responder), ("default_child_selector", s.selector.toValue)]

def ofValue? (d : Dialect) : Value → Option IndexSettings :=
  Value.record? d do
    let responder ← .defaulted "responder_id" default.responder Value.text?
    let selector ← .defaulted "default_child_selector" default.selector (Selector.ofValue? d)
    return ⟨responder, selector⟩

/-- The component that the responder setting denotes. -/
def responderComponent (s : IndexSettings) : Except SettingsError Component :=
  (Component.ofText s.responder).mapError .badResponder

/-- As above, with the event that reports a setting that denotes no component. -/
def responderReported (s : IndexSettings) : List Event × Except SettingsError Component :=
  match s.responderComponent with
  | .ok c => ([], .ok c)
  | .error e => ([.error "config" e.code], .error e)

end IndexSettings

namespace TelemetrySettings

def default : TelemetrySettings := ⟨"info", .json, false⟩

def toValue (s : TelemetrySettings) : Value :=
  .record
    [("log_filter", .text s.logFilter), ("log_format", s.logFormat.toValue),
     ("metrics", .boolean s.metrics)]

def ofValue? (d : Dialect) : Value → Option TelemetrySettings :=
  Value.record? d do
    let logFilter ← .defaulted "log_filter" default.logFilter Value.text?
    let logFormat ← .defaulted "log_format" default.logFormat (LogFormat.ofValue? d)
    let metrics ← .defaulted "metrics" default.metrics Value.boolean?
    return ⟨logFilter, logFormat, metrics⟩

end TelemetrySettings

namespace Settings

def default : Settings := ⟨.default, .default⟩

def toValue (s : Settings) : Value :=
  .record [("index", s.index.toValue), ("telemetry", s.telemetry.toValue)]

def ofValue? (d : Dialect) : Value → Option Settings :=
  Value.record? d do
    let index ← .defaulted "index" default.index (IndexSettings.ofValue? d)
    let telemetry ← .defaulted "telemetry" default.telemetry (TelemetrySettings.ofValue? d)
    return ⟨index, telemetry⟩

/-- The first setting, if any, whose value is of the right type and still not usable. -/
def validate (s : Settings) : Except SettingsError Unit :=
  match s.index.responderComponent with
  | .error e => .error e
  | .ok _ => if Text.isVacant s.telemetry.logFilter then .error .blankLogFilter else .ok ()

def ofToml (document : String) : Except SettingsError Settings :=
  match (Toml.parse document).bind (ofValue? Toml.dialect) with
  | none => .error .malformed
  | some s => s.validate.map fun _ => s

/-- Reads and checks the document that a file holds, if there is such a file. -/
def ofFile (file : Option ByteArray) : Except SettingsError Settings :=
  match file.bind String.fromUTF8? with
  | none => .error .unreadable
  | some document => ofToml document

end Settings

end NamedData
