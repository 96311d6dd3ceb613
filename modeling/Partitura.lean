import Partitura.Number.Binary64
import Partitura.Text.Character
import Partitura.Text.Quoted
import Partitura.Document.Value
import Partitura.Document.Reader
import Partitura.Notation.Token
import Partitura.Phrase.Drums
import Partitura.Tempo.Seconds
import Partitura.Harmony.Key
import Partitura.Harmony.TimeSignature
import Partitura.Harmony.Chord
import Partitura.Rhythm.Euclid
import Partitura.Melody.Continuation
import Partitura.Curve.Density
import Partitura.Session
import Partitura.Performance.Basic
import Partitura.Performance.Playing
import Partitura.Markov.Preset
import Partitura.Arpeggio.Order
import Partitura.Voicing.Progression
import Partitura.Phrase.Envelope
import Partitura.Pattern.Basic
import Partitura.Score.Basic
import Partitura.Score.Reader
import Partitura.Phrase.Expansion
import Partitura.Score.Occurrence
import Partitura.Timeline.Basic
import Partitura.Score.Compilation
import Partitura.Score.Analysis
import Partitura.Midi.Export
import Partitura.Midi.Bytes
import Partitura.Command.Report
import Partitura.Main
import Partitura.Document.Writer
import Partitura.Proofs.Computation
import Partitura.Proofs.Heedless
import Partitura.Proofs.Score.Entries
import Partitura.Proofs.Score.Independence
import Partitura.Number.Exact
import Partitura.Proofs.Sorting
import Partitura.Proofs.Tempo.Slices
import Partitura.Proofs.Performance
import Partitura.Proofs.Score.Playing
import Partitura.Proofs.Tempo.Direction
import Partitura.Proofs.Score.Timing
import Partitura.Proofs.Score.Layout
import Partitura.Proofs.Midi.InForce
import Partitura.Proofs.Midi.TempoMap
import Partitura.Proofs.Score.TimeOrder
import Partitura.Proofs.Notation.Grammar
import Partitura.Proofs.Notation.Parts
import Partitura.Proofs.Notation.Reading
import Partitura.Proofs.Notation.Writing
import Partitura.Proofs.Melody.Moving
import Partitura.Proofs.Pattern.Moving
import Partitura.Proofs.Phrase.Envelope
import Partitura.Proofs.Score.Overview
import Partitura.Proofs.Faults
import Partitura.Proofs.Determined
import Partitura.Proofs.Pattern.Following
import Partitura.Proofs.Score.Slices
import Partitura.Proofs.Pattern.Reports
import Partitura.Proofs.Score.References
import Partitura.Proofs.Phrase.Skeleton
import Partitura.Proofs.Phrase.InTime
import Partitura.Proofs.Score.Stopping
import Partitura.Proofs.Ordered
import Partitura.Proofs.Rhythm.Evenness
import Partitura.Proofs.Midi.Strikes
import Partitura.Proofs.Midi.Instruments
import Partitura.Proofs.Voicing.Candidates
import Partitura.Proofs.Voicing.Search
import Partitura.Proofs.Voicing.Greatest
import Partitura.Proofs.Performance.Thinning
import Partitura.Proofs.Voicing.Crossing
import Partitura.Proofs.Tempo.Bounds
import Partitura.Proofs.Performance.Bounds
import Partitura.Proofs.Pattern.Lineage
import Partitura.Proofs.Melody.Retrograde
import Partitura.Proofs.Melody.Inversion
import Partitura.Proofs.Melody.Augmentation
import Partitura.Proofs.Markov.Walks
import Partitura.Proofs.Markov.Presets
import Partitura.Proofs.Score.Repeats
import Partitura.Proofs.Score.Selection
import Partitura.Proofs.Melody.Extension
import Partitura.Proofs.Document.Writing
import Partitura.Proofs.Document.Spelling
import Partitura.Proofs.Pattern.Kinds
import Partitura.Proofs.Score.Spelling
import Partitura.Proofs.Score.Fitting
import Partitura.Proofs.Timeline.Overlay
import Partitura.Proofs.Harmony.Stacking
import Partitura.Proofs.Phrase.Swelling
import Partitura.Proofs.Arpeggio.Turning
import Partitura.Proofs.Harmony.Degrees
import Partitura.Proofs.Phrase.Stretching
