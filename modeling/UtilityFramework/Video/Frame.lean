import UtilityFramework.Lib.Memory
import UtilityFramework.Lib.Codec

/-!
# Video frames

The parameters of a frame are packed structures that are copied as they are. Their enumerations
are read from bytes too, so a parameter is any value of the integer type of its enumeration.

A `FrameInterface` is what the queries of a frame give, and its `view` is what a client sees
of it: the parameters and as many bytes of the buffer as the image has.
-/

namespace UtilityFramework

/-- `image_params`; `format` is a `pixel_format`. -/
structure ImageParams where
  width : UInt32
  height : UInt32
  size : UInt32
  format : UInt32
  deriving DecidableEq

/-- `display_params`. -/
structure DisplayParams where
  dts : UInt64
  pts : UInt64
  duration : UInt64
  timestamp : UInt64
  frameId : UInt64
  deriving DecidableEq

/-- `framerate`. -/
structure Framerate where
  numerator : UInt32
  denominator : UInt32
  deriving DecidableEq

/-- `video_params`; `interlaceMode` is an `interlace_mode`, `dataType` a `video_data_type`. -/
structure VideoParams where
  interlaceMode : UInt32
  framerate : Framerate
  dataType : UInt32
  deriving DecidableEq

namespace Codec

def imageParams : Codec ImageParams :=
  (uint32.pair (uint32.pair (uint32.pair uint32))).ofEquiv
    { toFun := fun p => (p.width, p.height, p.size, p.format)
      invFun := fun f => ⟨f.1, f.2.1, f.2.2.1, f.2.2.2⟩ }

def displayParams : Codec DisplayParams :=
  (uint64.pair (uint64.pair (uint64.pair (uint64.pair uint64)))).ofEquiv
    { toFun := fun p => (p.dts, p.pts, p.duration, p.timestamp, p.frameId)
      invFun := fun f => ⟨f.1, f.2.1, f.2.2.1, f.2.2.2.1, f.2.2.2.2⟩ }

def framerate : Codec Framerate :=
  (uint32.pair uint32).ofEquiv
    { toFun := fun r => (r.numerator, r.denominator)
      invFun := fun f => ⟨f.1, f.2⟩ }

def videoParams : Codec VideoParams :=
  (uint32.pair (framerate.pair uint32)).ofEquiv
    { toFun := fun p => (p.interlaceMode, p.framerate, p.dataType)
      invFun := fun f => ⟨f.1, f.2.1, f.2.2⟩ }

example : (imageParams.size, displayParams.size, videoParams.size) = (16, 40, 16) := rfl

end Codec

/-- What a client sees of a frame. -/
structure FrameView where
  image : ImageParams
  display : DisplayParams
  video : VideoParams
  bytes : List UInt8
  deriving DecidableEq

/-- `frame_interface`: what its queries give, `none` for a query that fails. The buffer is
given by its bytes. -/
structure FrameInterface where
  queryImageParams : Option ImageParams
  queryDisplayParams : Option DisplayParams
  queryVideoParams : Option VideoParams
  queryBuffer : Option (List UInt8)

namespace FrameInterface

/-- What a client sees of the frame, if no query fails. -/
def view (f : FrameInterface) : Option FrameView :=
  f.queryImageParams.bind fun image =>
  f.queryDisplayParams.bind fun display =>
  f.queryVideoParams.bind fun video =>
  f.queryBuffer.map fun buffer => ⟨image, display, video, buffer.take image.size.toNat⟩

end FrameInterface

/-- `frame_base`. -/
structure FrameBase where
  imageParams : ImageParams
  displayParams : DisplayParams
  videoParams : VideoParams
  buffer : List UInt8

namespace FrameBase

def interface (f : FrameBase) : FrameInterface where
  queryImageParams := some f.imageParams
  queryDisplayParams := some f.displayParams
  queryVideoParams := some f.videoParams
  queryBuffer := some f.buffer

end FrameBase

end UtilityFramework
