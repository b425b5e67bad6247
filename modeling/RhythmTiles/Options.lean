import RhythmTiles.Tracker
import RhythmTiles.Yaml.Document

/-!
# Options

Everything a level is compiled with beside its document. A settings text may give any part of the
options; the rest keeps its default.
-/

namespace RhythmTiles

structure Options where
  geometry : Geometry Float
  tracker : TrackerOptions Float

namespace Options

def defaultGeometry : Geometry Float := ⟨1280, 720, 320, 24, 6⟩

def defaultTracker : TrackerOptions Float := ⟨0.25, 5⟩

def default : Options := ⟨defaultGeometry, defaultTracker⟩

/-- The pixel measures of a node under a root. -/
def geometryOf? (root node : Yaml.Node) : Option (Geometry Float) := do
  let d := defaultGeometry
  let fields ← root.fields? ["viewport-height", "play-area-width", "base-tile-height",
    "indicator-size", "indicator-offset"] node
  let viewportHeight ← root.numberField? fields "viewport-height" d.viewportHeight
  let playAreaWidth ← root.numberField? fields "play-area-width" d.playAreaWidth
  let baseTileHeight ← root.numberField? fields "base-tile-height" d.baseTileHeight
  let indicatorSize ← root.numberField? fields "indicator-size" d.indicatorSize
  let indicatorOffset ← root.numberField? fields "indicator-offset" d.indicatorOffset
  pure ⟨viewportHeight, playAreaWidth, baseTileHeight, indicatorSize, indicatorOffset⟩

def trackerOf? (root node : Yaml.Node) : Option (TrackerOptions Float) := do
  let fields ← root.fields? ["lookback", "retention"] node
  let lookback ← root.numberField? fields "lookback" defaultTracker.lookback
  let retention ← root.numberField? fields "retention" defaultTracker.retention
  pure ⟨lookback, retention⟩

def ofNode? (root : Yaml.Node) : Option Options := do
  let fields ← root.fields? ["geometry", "tracker"] root
  let geometry ← geometryOf? root ((fields.lookup "geometry").getD .empty)
  let tracker ← trackerOf? root ((fields.lookup "tracker").getD .empty)
  pure ⟨geometry, tracker⟩

/-- The options of a settings text. A blank text has no settings. -/
def ofText? (text : String) : Option Options :=
  if text.toList.all Text.isBlank then some default
  else (Yaml.Node.ofText? text.toList).bind ofNode?

end Options

end RhythmTiles
