import RuleTrace.Text.Decimal
import RuleTrace.Text.Quoted
import RuleTrace.Text.WordChar
import RuleTrace.Text.DigitChar
import RuleTrace.Text.BlankChar
import RuleTrace.Style.Segment
import RuleTrace.Source.Location
import RuleTrace.Source.Quote
import RuleTrace.Event.Raw
import RuleTrace.Pattern.Search
import RuleTrace.Pattern.Meaning
import RuleTrace.Pattern.Basic
import RuleTrace.Call.View
import RuleTrace.Graph.Drawing
import RuleTrace.Tracer.Live
import RuleTrace.Html.Fragment
import RuleTrace.BracketList.Command
import RuleTrace.Main
import RuleTrace.Proofs.Tracer.Backtrace
import RuleTrace.Proofs.BracketList.Language
import RuleTrace.Proofs.BracketList.Record
import RuleTrace.Proofs.Tracer.Ink
import RuleTrace.Proofs.Graph.Callers
import RuleTrace.Proofs.Graph.Rows
import RuleTrace.Proofs.Tracer.Chain
import RuleTrace.Proofs.Html.Page
import RuleTrace.Proofs.Call.Replay
import RuleTrace.Proofs.Call.Stack
import RuleTrace.Proofs.Tracer.BrokenSink
import RuleTrace.Proofs.Tracer.PlainOutput
import RuleTrace.Proofs.Graph.Planar
import RuleTrace.Proofs.Pattern.Inherited
import RuleTrace.Proofs.Tracer.Refusal
import RuleTrace.Proofs.Call.Final
import RuleTrace.Proofs.Style.Strokes
import RuleTrace.Proofs.Source.Elided
import RuleTrace.Proofs.Tracer.LiveLog
import RuleTrace.Proofs.Source.LineNumber
import RuleTrace.Proofs.Graph.LaneStyles
import RuleTrace.Proofs.Pattern.Alternatives
import RuleTrace.Proofs.Call.RuleChains
import RuleTrace.Proofs.BracketList.Unbounded
import RuleTrace.Proofs.BracketList.Places
import RuleTrace.Proofs.BracketList.Printing
import RuleTrace.Proofs.Event.Forms
import RuleTrace.Proofs.Graph.Marks
import RuleTrace.Proofs.Graph.Merging
import RuleTrace.Proofs.Style.Slices
import RuleTrace.Proofs.Tracer.Sending
