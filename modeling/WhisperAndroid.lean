import WhisperAndroid.Support.LittleEndian
import WhisperAndroid.Support.Loop
import WhisperAndroid.Support.InputStream
import WhisperAndroid.Support.Rescale
import WhisperAndroid.Support.Rounding
import WhisperAndroid.Support.PrefixCode
import WhisperAndroid.Support.ModifiedUtf8
import WhisperAndroid.Support.Run
import WhisperAndroid.Support.Leftmost
import WhisperAndroid.Support.Stepwise
import WhisperAndroid.Support.SharedStore
import WhisperAndroid.Support.Spans
import WhisperAndroid.Support.Knots
import WhisperAndroid.Support.Table
import WhisperAndroid.Native.Arithmetic
import WhisperAndroid.Native.Binary32
import WhisperAndroid.Wav.ReadWav
import WhisperAndroid.Wav.ChunkWalk
import WhisperAndroid.Wav.Termination
import WhisperAndroid.Wav.DataBranch
import WhisperAndroid.Wav.Resample
import WhisperAndroid.Wav.SourceIndex
import WhisperAndroid.Wav.DefinedArithmetic
import WhisperAndroid.Wav.Accepted
import WhisperAndroid.Wav.StaleMemory
import WhisperAndroid.Wav.Layout
import WhisperAndroid.Wav.Decode
import WhisperAndroid.Wav.Transparency
import WhisperAndroid.Wav.Truncation
import WhisperAndroid.Native.Whisper
import WhisperAndroid.Native.Transcript
import WhisperAndroid.Context.Transcribe
import WhisperAndroid.Context.Isolation
import WhisperAndroid.Context.HandleSafety
import WhisperAndroid.Context.Interleaving
import WhisperAndroid.Context.Rejection
import WhisperAndroid.Grammar.Elements
import WhisperAndroid.Grammar.Stacks
import WhisperAndroid.Grammar.Recursion
import WhisperAndroid.Grammar.Utf8
import WhisperAndroid.Grammar.Candidates
import WhisperAndroid.Grammar.Tokens
import WhisperAndroid.Grammar.Completion
import WhisperAndroid.Decode.Vocabulary
import WhisperAndroid.Decode.Logits
import WhisperAndroid.Decode.Window
import WhisperAndroid.Decode.Certain
import WhisperAndroid.Decode.Timestamps
import WhisperAndroid.Decode.KvCache
import WhisperAndroid.Decode.CachedNetwork
import WhisperAndroid.Decode.CachedSearch
import WhisperAndroid.Decode.Segments
import WhisperAndroid.Decode.Ranking
import WhisperAndroid.Decode.Prompt
import WhisperAndroid.Decode.MainLoop
import WhisperAndroid.Decode.Results
import WhisperAndroid.Decode.CacheRoom
import WhisperAndroid.Decode.Alignment
import WhisperAndroid.Decode.TokenTimes
import WhisperAndroid.Decode.Parallel
import WhisperAndroid.Vad.Speeches
import WhisperAndroid.Vad.Segments
import WhisperAndroid.Vad.Loud
import WhisperAndroid.Vad.Filter
import WhisperAndroid.Vad.TimeMap
