import RhythmTiles.Folder
import RhythmTiles.Main
import RhythmTiles.Slot
import RhythmTiles.Proofs.Chord.Notes
import RhythmTiles.Proofs.Chord.Ornament
import RhythmTiles.Proofs.Command.Reports
import RhythmTiles.Proofs.Compiled.Faults
import RhythmTiles.Proofs.Compiled.Marks
import RhythmTiles.Proofs.Grid.Descent
import RhythmTiles.Proofs.Level.Acceptance
import RhythmTiles.Proofs.Level.Closed
import RhythmTiles.Proofs.Level.Ids
import RhythmTiles.Proofs.Level.Timeline
import RhythmTiles.Proofs.Score.Joined
import RhythmTiles.Proofs.Score.Reached
import RhythmTiles.Proofs.Slot.Playback
import RhythmTiles.Proofs.Tile.Height
import RhythmTiles.Proofs.Tile.Length
import RhythmTiles.Proofs.Timeline.Assembly
import RhythmTiles.Proofs.Timeline.Padding
import RhythmTiles.Proofs.Timeline.Tempo
import RhythmTiles.Proofs.Track.Truncation
import RhythmTiles.Proofs.Tracker.Delivery
import RhythmTiles.Proofs.Tracker.Keys
import RhythmTiles.Proofs.Words.Difference
import RhythmTiles.Proofs.Words.Length
import RhythmTiles.Proofs.Words.Reading
import RhythmTiles.Proofs.Words.Shares
