import WebKit.ContentExtensions.CompileToBytecode
import WebKit.ContentExtensions.SerializeActions
import WebKit.ContentExtensions.SimplifySunkTerms
import WebKit.ContentExtensions.ContentExtension
import WebKit.ContentExtensions.DFABytecodeCompiler.LinkRecords
import WebKit.ContentExtensions.DFABytecodeInterpreter.EndOfString
import WebKit.B3.LowerMacros
import WebKit.B3.CheckedArithmetic
import WebKit.B3.ReduceStrength.Pass
import WebKit.WTF.MediaTime.Arithmetic
import WebKit.IndexedDB.IDBKeyData
import WebKit.IndexedDB.IndexMirror
import WebKit.IndexedDB.AbortData
import WebKit.IndexedDB.UniqueIDBDatabase
import WebKit.Graphics.RegionAlgebra
import WebKit.WebSockets.WebSocketFrame
import WebKit.CSP.SourceListMatching
import WebKit.Text.DecodeChunks
import WebKit.Platform.DecimalRemainder
import WebKit.WTF.MetaAllocator.Books
import WebKit.BMalloc.LargeHeap
import WebKit.UIProcess.WebBackForwardList
import WebKit.JavaScriptCore.ToInt32
