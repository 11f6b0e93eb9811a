import TidyManifest.Command.Arguments
import TidyManifest.Command.Folder
import TidyManifest.Command.Host
import TidyManifest.Command.Run
import TidyManifest.Format.Basic
import TidyManifest.Grammar.Rule
import TidyManifest.Grammar.Step
import TidyManifest.Json.Basic
import TidyManifest.Layout.Align
import TidyManifest.Layout.Render
import TidyManifest.Layout.View
import TidyManifest.Main
import TidyManifest.Outline.Basic
import TidyManifest.Outline.Document
import TidyManifest.Outline.Drawing
import TidyManifest.Parse.Basic
import TidyManifest.Parse.Captures
import TidyManifest.Parse.Recognise
import TidyManifest.Parse.Resource
import TidyManifest.Parse.State
import TidyManifest.Parse.Steps
import TidyManifest.Proofs.Agree.Parse
import TidyManifest.Proofs.Agree.State
import TidyManifest.Proofs.Agree.Steps
import TidyManifest.Proofs.Blame.Bodies
import TidyManifest.Proofs.Blame.Lines
import TidyManifest.Proofs.Blame.Newlines
import TidyManifest.Proofs.Blame.Nodes
import TidyManifest.Proofs.Blame.Notes
import TidyManifest.Proofs.Blame.Parse
import TidyManifest.Proofs.Blame.Reopened
import TidyManifest.Proofs.Blame.Titles
import TidyManifest.Proofs.Brackets.Counting
import TidyManifest.Proofs.Brackets.Groups
import TidyManifest.Proofs.Brackets.Reading
import TidyManifest.Proofs.Brackets.Residue
import TidyManifest.Proofs.Brackets.Subjects
import TidyManifest.Proofs.Conservation.Ink
import TidyManifest.Proofs.Conservation.Manifest
import TidyManifest.Proofs.Conservation.Resources
import TidyManifest.Proofs.Conservation.Tokens
import TidyManifest.Proofs.Hygiene.Format
import TidyManifest.Proofs.Hygiene.Layout
import TidyManifest.Proofs.Hygiene.Leads
import TidyManifest.Proofs.Hygiene.Scan
import TidyManifest.Proofs.Layout.Alignment
import TidyManifest.Proofs.Layout.Columns
import TidyManifest.Proofs.Layout.Headers
import TidyManifest.Proofs.Layout.Indentation
import TidyManifest.Proofs.Layout.Naturality
import TidyManifest.Proofs.Layout.Phrases
import TidyManifest.Proofs.Layout.Shift
import TidyManifest.Proofs.Layout.Unlined
import TidyManifest.Proofs.Lexing.Alone
import TidyManifest.Proofs.Lexing.Apart
import TidyManifest.Proofs.Lexing.Lossless
import TidyManifest.Proofs.Lexing.Matches
import TidyManifest.Proofs.Lexing.Refusal
import TidyManifest.Proofs.Lexing.Slashes
import TidyManifest.Proofs.Lexing.Spelling
import TidyManifest.Proofs.Lookahead.Filtered
import TidyManifest.Proofs.Newlines.Collapse
import TidyManifest.Proofs.Newlines.Format
import TidyManifest.Proofs.Newlines.Reading
import TidyManifest.Proofs.Newlines.SameLine
import TidyManifest.Proofs.Outline.Rows
import TidyManifest.Proofs.Phrase.Basic
import TidyManifest.Proofs.Phrase.Lines
import TidyManifest.Proofs.Plain.Basic
import TidyManifest.Proofs.Plain.Evaluate
import TidyManifest.Proofs.Plain.First
import TidyManifest.Proofs.Plain.Fits
import TidyManifest.Proofs.Plain.Found
import TidyManifest.Proofs.Plain.Interpret
import TidyManifest.Proofs.Plain.Logged
import TidyManifest.Proofs.Plain.Mapped
import TidyManifest.Proofs.Plain.Numbering
import TidyManifest.Proofs.Plain.Schema
import TidyManifest.Proofs.Plain.Spells
import TidyManifest.Proofs.Plain.Sufficient
import TidyManifest.Proofs.Plain.Values
import TidyManifest.Proofs.Progress.Descent
import TidyManifest.Proofs.Progress.Parse
import TidyManifest.Proofs.Progress.Run
import TidyManifest.Proofs.RoundTrip.Blocks
import TidyManifest.Proofs.RoundTrip.Canonical
import TidyManifest.Proofs.RoundTrip.Layout
import TidyManifest.Proofs.RoundTrip.Manifest
import TidyManifest.Proofs.RoundTrip.Reading
import TidyManifest.Proofs.RoundTrip.Statements
import TidyManifest.Proofs.RoundTrip.Written
import TidyManifest.Proofs.Splitting.Failures
import TidyManifest.Proofs.Splitting.Items
import TidyManifest.Proofs.Splitting.Layout
import TidyManifest.Proofs.Splitting.Reopened
import TidyManifest.Proofs.Splitting.Resources
import TidyManifest.Proofs.Splitting.Split
import TidyManifest.Proofs.Splitting.Statements
import TidyManifest.Proofs.Tree.Calls
import TidyManifest.Proofs.Tree.Filled
import TidyManifest.Proofs.Tree.Levels
import TidyManifest.Proofs.Tree.Parsed
import TidyManifest.Proofs.Tree.Preorder
import TidyManifest.Proofs.Tree.Regular
import TidyManifest.Settings.Load
import TidyManifest.Settings.Toml.Document
import TidyManifest.Settings.Toml.Numbers
import TidyManifest.Settings.Toml.Strings
import TidyManifest.Settings.Toml.Table
import TidyManifest.Settings.Value
import TidyManifest.Source
import TidyManifest.Text.Basic
import TidyManifest.Text.Cased
import TidyManifest.Text.Extending
import TidyManifest.Text.Lines
import TidyManifest.Text.Lower
import TidyManifest.Text.Quoted
import TidyManifest.Text.Unassigned
import TidyManifest.Token.Basic
import TidyManifest.Token.Cursor
import TidyManifest.Token.Kind
import TidyManifest.Token.Lexer
import TidyManifest.Token.Pattern
import TidyManifest.Token.Rules
import TidyManifest.Tree.Basic
import TidyManifest.Tree.Category
import TidyManifest.Tree.Node
